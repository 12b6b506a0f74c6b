import FireRedis.Keyspace.Runs
import FireRedis.Persistence.Manager
import FireRedis.Persistence.Reopen

/-!
# Snapshots survive crashes

A process serves requests, saves, fails to save and dies, and another process
starts on the files it left. Clients see a keyspace that falls back, at each
start, to what the last completed save held and has not expired since. A save
writes to a second file and renames it, so that what a broken save leaves
behind is never loaded.

A save is one step: no request comes between its scans of the store. The clocks
give whole milliseconds and go in step, so that a deadline survives unchanged.
-/

namespace FireRedis
open Std Simulation RdbSerializer

/-! ### What is promised -/

/-- The scores of a sorted set are read back from text, equal in rank. -/
def Content.Alike : Content → Content → Prop
  | zset a, zset b => ∀ m, (a.lookup m).map F64.rank = (b.lookup m).map F64.rank
  | c, c' => c = c'

structure Item.Alike (i i' : Item) : Prop where
  content : i.content.Alike i'.content
  deadline : i.deadline = i'.deadline

def Keyspace.Alike (D D' : Keyspace) : Prop := ∀ key, Option.Rel Item.Alike (D key) (D' key)

/-- What clients see, and what a new process would find. -/
structure Durable where
  current : Keyspace
  saved : Keyspace

inductive Notice where
  | answered (e : Exchange)
  | saved (now : Reading)
  | started (now : Reading) (r : Except Panic (Except Str Unit))

def Durable.Sees (F : FloatText) (D : Durable) : Notice → Durable → Prop
  | .answered e, D' => D.current.Answers F e D'.current ∧ D'.saved = D.saved
  | .saved now, D' => D' = ⟨D.current, D.current.later now.instant⟩
  | .started now r, D' => r = .ok (.ok ()) ∧ (D.saved.later now.instant).Alike D'.current ∧
      D'.saved = D.saved

/-! ### The server and its disk -/

structure Host where
  store : Store
  fs : FileSystem

/-- A broken save has written the first `written` bytes of its file. A restart
is the end of the process, between any two of the others, and the start of the next. -/
inductive Incident where
  | request (turn : Turn)
  | evict (now : Reading)
  | save (now : Reading) (ord : IterOrder)
  | brokenSave (now : Reading) (ord : IterOrder) (written : ℕ)
  | restart (now : Reading) (ord : IterOrder) (info : Bytes)

def brokenSave (F : FloatText) (ord : IterOrder) (written : ℕ) (path : PathBuf)
    (fs : FileSystem) : StoreM FileSystem := do
  let (file, fs) := fs.create (withExtension path "tmp")
  let bytes ← RdbSerializer.save F ord
  return fs.write file (bytes.take written)

namespace Host

variable (F : FloatText) (config : PersistenceConfig) (h : Host)

/-- What a call on the store and the files leaves. -/
def after (now : Reading) (m : FileSystem → StoreM FileSystem) : Host :=
  match (m h.fs).runAt now h.store with
  | (.ok fs, s) => ⟨s, fs⟩
  | (.error _, s) => ⟨s, h.fs⟩

def start (now : Reading) (ord : IterOrder) (info : Bytes) :
    Except Panic (Except Str Unit) × Host :=
  let opened := PersistenceManager.new config h.fs
  let loaded := (opened.1.loadOnStartup F ord info opened.2).runAt now Store.empty
  (loaded.1, ⟨loaded.2, opened.2⟩)

end Host

namespace Incident

def instant : Incident → Instant
  | request turn => turn.now.instant
  | evict now | save now _ | brokenSave now _ _ | restart now _ _ => now.instant

def now : Incident → Reading
  | request turn => turn.now
  | evict now | save now _ | brokenSave now _ _ | restart now _ _ => now

def step (F : FloatText) (config : PersistenceConfig) (h : Host) :
    Incident → Option Notice × Host
  | request turn => (some (.answered (turn, (turn.run F h.store).1)),
      ⟨(turn.run F h.store).2, h.fs⟩)
  | evict now => (none, ⟨(Store.evictExpired.runAt now h.store).2, h.fs⟩)
  | save now ord => (some (.saved now), h.after now (saveToFile F ord config.rdbFile))
  | brokenSave now ord written =>
    (none, h.after now (FireRedis.brokenSave F ord written config.rdbFile))
  | restart now ord info =>
    (some (.started now (h.start F config now ord info).1), (h.start F config now ord info).2)

/-- What is saved fits in memory and in Unix time. -/
def Fits (F : FloatText) (epoch : ℕ) (h : Host) : Incident → Prop
  | save now ord => Savable epoch h.store now.instant ∧
      (savedBytes F ord now (h.store.evicted now.instant)).length ≤ isizeMax
  | _ => True

end Incident

/-! ### Alike keyspaces -/

theorem content_alike {v w : StoredValue} (h : v.Same w) : v.content.Alike w.content := by
  cases v with
  | sortedSet z =>
    cases w with
    | sortedSet z' =>
      intro m
      rw [SortedSet.finmap, SortedSet.finmap, ExtTreeMap.lookup_toFinmap,
        ExtTreeMap.lookup_toFinmap]
      exact h.scores m
    | _ => cases h
  | _ =>
    obtain rfl : _ = w := h
    rfl

theorem eq_of_rel {α : Type} {x y : Option α} (h : Option.Rel Eq x y) : x = y := by
  cases h with
  | none => rfl
  | some hab => exact congrArg some hab

theorem keyspace_alike {D E : Dataset} (h : Dataset.Related Eq D E) :
    D.keyspace.Alike E.keyspace := by
  intro key
  have hkey := h key
  rw [Dataset.keyspace, Dataset.keyspace]
  generalize D key = e, E key = e' at hkey
  cases hkey with
  | none => exact Option.Rel.none
  | some he =>
    exact Option.Rel.some ⟨content_alike he.value, eq_of_rel he.deadline⟩

/-! ### The disk -/

section Disk

variable (F : FloatText) (epoch : ℕ) (path : PathBuf)

/-- The file at the path is what the last completed save has written. -/
inductive OnDisk (t : Instant) (fs : FileSystem) : Keyspace → Prop
  | missing (h : fs.names path = none) : OnDisk t fs fun _ => none
  | file (s : Store) (ord : IterOrder) (saved : Reading) (hs : s.Inv StoredValue.WellFormed)
      (hmilli : s.MilliDeadlines epoch) (hclock : saved.InStep epoch) (ht : saved.instant ≤ t)
      (hsavable : Savable epoch s saved.instant)
      (hread : fs.read path = some (savedBytes F ord saved (s.evicted saved.instant)))
      (hlen : (savedBytes F ord saved (s.evicted saved.instant)).length ≤ isizeMax) :
      OnDisk t fs (s.keyspace saved.instant)

variable {F epoch path} {t t' : Instant} {fs fs' : FileSystem} {D : Keyspace}

theorem OnDisk.later (h : OnDisk F epoch path t fs D) (ht : t ≤ t')
    (hnames : fs'.names path = fs.names path) (hread : fs'.read path = fs.read path) :
    OnDisk F epoch path t' fs' D := by
  cases h with
  | missing h => exact .missing (hnames.trans h)
  | file s ord saved hs hmilli hclock hsaved hsavable hfile hlen =>
    exact .file s ord saved hs hmilli hclock (Nat.le_trans hsaved ht) hsavable
      (hread.trans hfile) hlen

/-- A completed save leaves nothing at the path that it wrote to. -/
theorem saveToFile_temp (ord : IterOrder) (now : Reading) {P : StoredValue → Prop} {s : Store}
    (hs : s.Inv P) (htemp : withExtension path "tmp" ≠ path) (fs : FileSystem) :
    ∃ fs', (saveToFile F ord path fs).runAt now s = (.ok fs', s.evicted now.instant) ∧
      fs'.read path = some (savedBytes F ord now (s.evicted now.instant)) ∧
      fs'.names (withExtension path "tmp") = none := by
  obtain ⟨fs', hrun, hread, -⟩ := saveToFile_run F ord now hs path fs
  have hsame := hrun
  rw [saveToFile, runAt_bind_ok now (save_run F ord now hs)] at hsame
  refine ⟨fs', hrun, hread, ?_⟩
  rw [← Except.ok.inj (Prod.mk.inj hsame).1]
  show (if _ then _ else if _ then none else _) = none
  rw [if_neg htemp, if_pos rfl]

/-- A save that breaks leaves the file at the path as it is. -/
theorem brokenSave_run (ord : IterOrder) (now : Reading) {P : StoredValue → Prop} {s : Store}
    (hs : s.Inv P) (htemp : withExtension path "tmp" ≠ path)
    (hapart : fs.Apart path (withExtension path "tmp")) (written : ℕ) :
    ∃ fs', (brokenSave F ord written path fs).runAt now s = (.ok fs', s.evicted now.instant) ∧
      fs'.names path = fs.names path ∧ fs'.read path = fs.read path ∧
      fs'.Apart path (withExtension path "tmp") := by
  have hnames : ((fs.create (withExtension path "tmp")).2).names path = fs.names path :=
    FileSystem.create_names_ne fs htemp.symm
  have hnew := (FileSystem.create_names fs (withExtension path "tmp")).1
  let fs' := (fs.create (withExtension path "tmp")).2.write (fs.create (withExtension path "tmp")).1
    ((savedBytes F ord now (s.evicted now.instant)).take written)
  refine ⟨fs', ?_, hnames, ?_, ?_⟩
  · rw [brokenSave, runAt_bind_ok now (save_run F ord now hs)]
    rfl
  · have hne : (fs.create (withExtension path "tmp")).2.names path ≠
        some (fs.create (withExtension path "tmp")).1 := by
      rw [hnames]
      exact fun hi => FileSystem.create_handle_ne hapart hi rfl
    exact (FileSystem.read_write_ne _ hne _).trans
      (FileSystem.read_create_ne htemp.symm hapart)
  · intro i hi
    rw [FileSystem.names_write, hnames] at hi
    rw [FileSystem.names_write, hnew]
    exact fun h => FileSystem.create_handle_ne hapart hi (Option.some.inj h)

/-- A process that starts finds the snapshot, less what has expired. -/
theorem start_run (hF : F.RoundTrips) {config : PersistenceConfig} (hrdb : config.rdbEnabled = true)
    (haof : config.aofEnabled = false) {h : Host}
    (hdisk : OnDisk F epoch config.rdbFile t h.fs D) {now : Reading} (hnow : now.InStep epoch)
    (ht : t ≤ now.instant) (ord : IterOrder) (info : Bytes) :
    ∃ s, h.start F config now ord info = (.ok (.ok ()), ⟨s, h.fs⟩) ∧
      s.Inv StoredValue.WellFormed ∧ s.MilliDeadlines epoch ∧
      (D.later now.instant).Alike (s.keyspace now.instant) := by
  have hnew : PersistenceManager.new config h.fs = (⟨config, none⟩, h.fs) := by
    rw [PersistenceManager.new, haof]
    rfl
  cases hdisk with
  | missing hmissing =>
    have hload : (⟨config, none⟩ : PersistenceManager).loadOnStartup F ord info h.fs =
        pure (.ok ()) := by
      rw [PersistenceManager.loadOnStartup, haof, FileSystem.found, FileSystem.found, hmissing]
      simp
    refine ⟨Store.empty, ?_, Store.inv_empty _, milliDeadlines_empty epoch, fun key => ?_⟩
    · rw [Host.start, hnew, hload]
      rfl
    · rw [Store.keyspace, Store.live_empty]
      exact Option.Rel.none
  | file s₀ ord' saved hs hmilli hclock hsaved hsavable hread hlen =>
    have hle := Nat.le_trans hsaved ht
    obtain ⟨s, hload, hrelated⟩ :=
      reload_later hF ord' hs hmilli hclock hnow hle hsavable hread hlen
    have hfound : h.fs.found config.rdbFile = true := by
      obtain ⟨i, hi, -⟩ := Option.map_eq_some_iff.mp hread
      rw [FileSystem.found, hi]
      rfl
    have hoff : (config.aofEnabled && h.fs.found config.aofFile) = false := by
      rw [haof]
      rfl
    have hstart : ((⟨config, none⟩ : PersistenceManager).loadOnStartup F ord info h.fs).runAt now
        Store.empty = (.ok (.ok ()), s) :=
      PersistenceManager.loadOnStartup_snapshot F ord info hoff hrdb hfound hload
    obtain ⟨hinv, hdeadlines⟩ :=
      keeps_loadSaved F ord' saved hs hsavable.fits hread hlen now Store.empty (Store.inv_empty _)
    rw [hload] at hinv hdeadlines
    refine ⟨s, ?_, hinv, milliDeadlines_new (milliDeadlines_empty epoch) hnow hdeadlines, ?_⟩
    · rw [Host.start, hnew, hstart]
    · rw [← keyspace_later s₀ hle]
      exact keyspace_alike hrelated

end Disk

/-! ### Runs -/

theorem turn_newDeadlines (F : FloatText) (turn : Turn) {s : Store}
    (hs : s.Inv StoredValue.WellFormed) :
    NewDeadlines turn.now.instant s (turn.run F s).2 := by
  rw [Turn.run]
  cases hreq : requested F turn.frame with
  | ok cmd =>
    obtain ⟨args, hframe, hparse⟩ := requested_ok hreq
    rw [hframe, respond_parsed F turn.ord turn.info hparse]
    exact (keeps_parsed turn.ord turn.info hparse turn.now s hs).2
  | error reply =>
    rw [respond_turned_away hreq]
    exact NewDeadlines.refl _ _

/-- The snapshot and the file that saves write to are different files. -/
structure Kept (F : FloatText) (epoch : ℕ) (path : PathBuf) (t : Instant) (h : Host)
    (D : Durable) : Prop where
  current : Shows t h.store D.current
  milli : h.store.MilliDeadlines epoch
  apart : h.fs.Apart path (withExtension path "tmp")
  disk : OnDisk F epoch path t h.fs D.saved

theorem kept_start (F : FloatText) (epoch : ℕ) {path : PathBuf} {fs : FileSystem}
    (hfirst : fs.names path = none) :
    Kept F epoch path 0 ⟨Store.empty, fs⟩ ⟨fun _ => none, fun _ => none⟩ := by
  refine ⟨⟨Store.inv_empty _, fun t _ => ?_⟩, milliDeadlines_empty epoch, fun i hi => ?_,
    .missing hfirst⟩
  · rw [Store.keyspace, Store.live_empty]
    rfl
  · rw [hfirst] at hi
    cases hi

theorem Kept.later {F : FloatText} {epoch : ℕ} {path : PathBuf} {t t' : Instant} {h : Host}
    {D : Durable} (hD : Kept F epoch path t h D) (ht : t ≤ t') : Kept F epoch path t' h D :=
  ⟨⟨hD.current.inv, fun u hu => hD.current.later u (Nat.le_trans ht hu)⟩, hD.milli, hD.apart,
    hD.disk.later ht rfl rfl⟩

section Steps

variable {F : FloatText} {epoch : ℕ} {config : PersistenceConfig} {t : Instant} {h : Host}
  {D : Durable}

theorem evicted_kept {s : Store} {D : Keyspace} (h : Shows t s D) (hmilli : s.MilliDeadlines epoch)
    {now : Reading} (ht : t ≤ now.instant) (hnow : now.InStep epoch) :
    Shows now.instant (s.evicted now.instant) D ∧
      (s.evicted now.instant).MilliDeadlines epoch := by
  refine ⟨⟨Store.inv_evicted h.inv now.instant, fun t' ht' => ?_⟩, ?_⟩
  · have hsame := Store.live_eq_later ht' (Store.live_evicted h.inv now.instant)
    rw [← h.later t' (Nat.le_trans ht ht'), Store.keyspace, hsame]
  · have hnew := (Keeps.evictExpired (P := StoredValue.WellFormed) now s h.inv).2
    rw [evictExpired_snd] at hnew
    exact milliDeadlines_new hmilli hnow hnew

theorem incident_seen (hF : F.RoundTrips) (hrdb : config.rdbEnabled = true)
    (haof : config.aofEnabled = false)
    (htemp : withExtension config.rdbFile "tmp" ≠ config.rdbFile) (a : Incident)
    (hfits : a.Fits F epoch h) (hD : Kept F epoch config.rdbFile t h D) (ht : t ≤ a.instant)
    (hclock : a.now.InStep epoch) : ∃ D',
      Allows (Durable.Sees F) D (a.step F config h).1.toList D' ∧
        Kept F epoch config.rdbFile a.instant (a.step F config h).2 D' := by
  obtain ⟨hshows, hmilli, hapart, hdisk⟩ := hD
  cases a with
  | request turn =>
    obtain ⟨hanswers, hinv⟩ := request_answered (F := F) hshows turn ht
    have hseen : D.Sees F (.answered (turn, (turn.run F h.store).1))
        ⟨(turn.run F h.store).2.keyspace turn.now.instant, D.saved⟩ := ⟨hanswers, rfl⟩
    exact ⟨_, .cons hseen (.nil _), shows_keyspace hinv turn.now.instant,
      milliDeadlines_new hmilli hclock (turn_newDeadlines F turn hshows.inv), hapart,
      hdisk.later ht rfl rfl⟩
  | evict now =>
    obtain ⟨hshows', hmilli'⟩ := evicted_kept hshows hmilli ht hclock
    have hstep : (Incident.evict now).step F config h =
        (none, ⟨h.store.evicted now.instant, h.fs⟩) := by
      rw [Incident.step, evictExpired_snd]
    rw [hstep]
    exact ⟨D, .nil D, hshows', hmilli', hapart, hdisk.later ht rfl rfl⟩
  | save now ord =>
    obtain ⟨hshows', hmilli'⟩ := evicted_kept hshows hmilli ht hclock
    obtain ⟨fs', hrun, hread, hnone⟩ := saveToFile_temp (F := F) ord now hshows.inv htemp h.fs
    have hstep : (Incident.save now ord).step F config h =
        (some (.saved now), ⟨h.store.evicted now.instant, fs'⟩) := by
      rw [Incident.step, Host.after, hrun]
    rw [hstep]
    refine ⟨⟨D.current, D.current.later now.instant⟩, .cons rfl (.nil _), hshows', hmilli', ?_, ?_⟩
    · intro i _
      rw [hnone]
      exact fun h => by cases h
    · rw [← hshows.later now.instant ht]
      exact .file h.store ord now hshows.inv hmilli hclock (Nat.le_refl _) hfits.1 hread hfits.2
  | brokenSave now ord written =>
    obtain ⟨hshows', hmilli'⟩ := evicted_kept hshows hmilli ht hclock
    obtain ⟨fs', hrun, hnames, hread, hapart'⟩ :=
      brokenSave_run (F := F) ord now hshows.inv htemp hapart written
    have hstep : (Incident.brokenSave now ord written).step F config h =
        (none, ⟨h.store.evicted now.instant, fs'⟩) := by
      rw [Incident.step, Host.after, hrun]
    rw [hstep]
    exact ⟨D, .nil D, hshows', hmilli', hapart', hdisk.later ht hnames hread⟩
  | restart now ord info =>
    have hnow : now.InStep epoch := hclock
    obtain ⟨s, hstart, hinv, hmilli', halike⟩ := start_run hF hrdb haof hdisk hnow ht ord info
    have hstep : (Incident.restart now ord info).step F config h =
        (some (.started now (.ok (.ok ()))), ⟨s, h.fs⟩) := by
      rw [Incident.step, hstart]
    rw [hstep]
    have hseen : D.Sees F (.started now (.ok (.ok ()))) ⟨s.keyspace now.instant, D.saved⟩ :=
      ⟨rfl, halike, rfl⟩
    exact ⟨_, .cons hseen (.nil _), shows_keyspace hinv now.instant, hmilli', hapart,
      hdisk.later ht rfl rfl⟩

end Steps

/-- From the first start on, through requests, evictions, saves, broken saves
and any number of restarts between these: every start succeeds and gives back
what the last completed save held, less what has expired since, and up to then
the replies are those of the keyspace. What is saved fits, and the clocks are in
step and never go back. -/
theorem snapshots_survive_crashes (F : FloatText) (hF : F.RoundTrips) (epoch : ℕ)
    (config : PersistenceConfig) (hrdb : config.rdbEnabled = true)
    (haof : config.aofEnabled = false)
    (htemp : withExtension config.rdbFile "tmp" ≠ config.rdbFile) (fs : FileSystem)
    (hfirst : fs.names config.rdbFile = none) (incidents : List Incident)
    (hmono : incidents.Pairwise fun a b => a.instant ≤ b.instant)
    (hclock : ∀ a ∈ incidents, a.now.InStep epoch)
    (hfits : Along (Incident.step F config) (fun h a => a.Fits F epoch h) incidents
      ⟨Store.empty, fs⟩) :
    ∃ D, Allows (Durable.Sees F) ⟨fun _ => none, fun _ => none⟩
        (events (Incident.step F config) incidents ⟨Store.empty, fs⟩).1 D ∧
      ∀ t, (∀ a ∈ incidents, a.instant ≤ t) →
        (events (Incident.step F config) incidents ⟨Store.empty, fs⟩).2.store.keyspace t =
          D.current.later t := by
  obtain ⟨D, hallows, u, hu, hkept⟩ := allows_along
    (fun a ha t h D hok hD ht => incident_seen hF hrdb haof htemp a hok hD ht (hclock a ha))
    hmono (fun a _ => Nat.zero_le a.instant) hfits (kept_start F epoch hfirst)
  refine ⟨D, hallows, fun t hall => hkept.current.later t ?_⟩
  rcases hu with rfl | ⟨a, ha, rfl⟩
  · exact Nat.zero_le t
  · exact hall a ha

/-- A key with a deadline is saved and overwritten; the next save breaks, and the
process dies. -/
def overwritten : List Incident :=
  [.request ⟨commandValue "SET" [Str.utf8 "k", Str.utf8 "v", Str.utf8 "PX", Str.utf8 "5"],
      .sorted, [], ⟨1000000, 1⟩⟩,
    .save ⟨2000000, 2⟩ .sorted,
    .request ⟨commandValue "SET" [Str.utf8 "k", Str.utf8 "w"], .sorted, [], ⟨3000000, 3⟩⟩,
    .brokenSave ⟨4000000, 4⟩ .sorted 40,
    .restart ⟨5000000, 5⟩ .sorted []]

/-- The key has its first value again, and its deadline. -/
theorem snapshots_survive_crashes_overwritten :
    ∃ D, Allows (Durable.Sees bitText) ⟨fun _ => none, fun _ => none⟩
        (events (Incident.step bitText .default) overwritten ⟨Store.empty, .empty⟩).1 D ∧
      D.current.later 5000000 (Str.lit "k") = some ⟨.string (Str.utf8 "v"), some 6000000⟩ := by
  have hfits : Along (Incident.step bitText .default) (fun h a => a.Fits bitText 0 h) overwritten
      ⟨Store.empty, .empty⟩ := by
    refine ⟨trivial, ⟨?_, ?_⟩, trivial, trivial, trivial, trivial⟩
    · exact savable_string (d := some 6000000) (Str.lit "k") (Str.utf8 "v") 2000000
        fun x hx => by
          obtain rfl := Option.some.inj hx
          decide
    · exact Nat.le_trans (by decide +kernel : _ ≤ 100) (by decide)
  obtain ⟨D, hallows, hlater⟩ := snapshots_survive_crashes bitText bitText_roundTrips 0 .default rfl
    rfl (by decide) .empty rfl overwritten (by decide +kernel) (fun a ha => by
      simp only [overwritten, List.mem_cons, List.not_mem_nil, or_false] at ha
      rcases ha with rfl | rfl | rfl | rfl | rfl <;> rfl) hfits
  refine ⟨D, hallows, ?_⟩
  rw [← hlater 5000000 (by decide +kernel)]
  rfl

end FireRedis
