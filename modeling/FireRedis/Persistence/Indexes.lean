import FireRedis.Persistence.Reachable
import FireRedis.Store.Listings

/-!
# The indexes of every sorted set

Commands, evictions, saves, replays and loads in any order, a load into a store
that may hold keys already. The two indexes of a sorted set say the same in
every store on the way.
-/

namespace FireRedis
open Std RdbSerializer RdbDeserializer

/-- The stores of any sequence of operations. A loaded file was saved from one
of them and fits in memory. -/
inductive Visited (F : FloatText) : Store → Prop
  | empty : Visited F Store.empty
  | command (s : Store) (ord : IterOrder) (info : Bytes) (now : Reading) (args : List Value)
      (cmd : Command) (hs : Visited F s) (hparse : tryFrom F args = .ok cmd) :
      Visited F ((cmd.execute F ord info).runAt now s).2
  | evict (s : Store) (now : Reading) (hs : Visited F s) :
      Visited F (Store.evictExpired.runAt now s).2
  | save (s : Store) (ord : IterOrder) (path : PathBuf) (fs : FileSystem) (now : Reading)
      (hs : Visited F s) : Visited F ((saveToFile F ord path fs).runAt now s).2
  | replay (s : Store) (ord : IterOrder) (info : Bytes) (fs : FileSystem) (path : PathBuf)
      (now : Reading) (hs : Visited F s) :
      Visited F ((replay F ord info fs path).runAt now s).2
  | load (s source : Store) (ord : IterOrder) (path path' : PathBuf) (fs fs' fs'' : FileSystem)
      (bytes : Bytes) (saved now : Reading) (hs : Visited F s) (hsource : Visited F source)
      (hsave : ((saveToFile F ord path fs).runAt saved source).1 = .ok fs')
      (hbytes : fs'.read path = some bytes) (hfits : FitsAt source saved.instant)
      (hlen : bytes.length ≤ isizeMax) (hfile : fs''.read path' = some bytes) :
      Visited F ((loadFromFile F fs'' path').runAt now s).2

theorem visited_inv {F : FloatText} {s : Store} (h : Visited F s) :
    s.Inv StoredValue.WellFormed := by
  induction h with
  | empty => exact Store.inv_empty _
  | command s ord info now args cmd hs hparse ih => exact (keeps_parsed ord info hparse now s ih).1
  | evict s now hs ih => exact (Keeps.evictExpired now s ih).1
  | save s ord path fs now hs ih =>
    obtain ⟨fs', hrun, -⟩ := saveToFile_run F ord now ih path fs
    rw [hrun]
    exact Store.inv_evicted ih now.instant
  | replay s ord info fs path now hs ih => exact (keeps_replay ord info fs path now s ih).1
  | load s source ord path path' fs fs' fs'' bytes saved now hs hsource hsave hbytes hfits hlen
      hfile ih ihsource =>
    obtain ⟨fs₀, hrun, hread, -⟩ := saveToFile_run F ord saved ihsource path fs
    have hfs : fs₀ = fs' := by
      rw [hrun] at hsave
      exact Except.ok.inj hsave
    have hsaved : bytes = savedBytes F ord saved (source.evicted saved.instant) := by
      rw [← hfs, hread] at hbytes
      exact (Option.some.inj hbytes).symm
    rw [hsaved] at hfile hlen
    exact (keeps_loadSaved F ord saved ihsource hfits hfile hlen now s ih).1

/-- In every sorted set of a visited store, `scores` gives a member an equal
score exactly if the bucket of that score holds it, no bucket is empty, and a
member is in exactly one bucket. -/
theorem visited_sorted_set (F : FloatText) (s : Store) (h : Visited F s) (key : Str)
    (z : SortedSet) (hz : s.data[key]? = some (.sortedSet z)) :
    (∀ (m : Bytes) (x : F64), (∃ y, z.scores[m]? = some y ∧ y.rank = x.rank) ↔
      ∃ b, z.tree[x]? = some b ∧ m ∈ b) ∧
    (∀ (x : F64) b, z.tree[x]? = some b → b.isEmpty = false) ∧
    ∀ m : Bytes, (m ∈ z.scores → ∃! e, e ∈ z.tree.toList ∧ m ∈ e.2) ∧
      (m ∉ z.scores → ∀ e ∈ z.tree.toList, m ∉ e.2) := by
  obtain ⟨-, hc⟩ : z.scores.isEmpty = false ∧ z.Consistent := (visited_inv h).values key _ hz
  refine ⟨hc.linked, hc.buckets, fun m => ⟨hc.one_bucket, fun hm e he hmem => hm ?_⟩⟩
  obtain ⟨y, hy, -⟩ := (hc.listed he).mp hmem
  rw [ExtTreeMap.mem_iff_isSome_getElem?, hy]
  rfl

/-- ZADD of a member that moves to another bucket. -/
theorem visited_sorted_set_moved :
    let add (score : UInt64) (member : String) (s : Store) :=
      (((Command.zAdd (Str.lit "k") [(⟨score⟩, Str.utf8 member)]).execute bitText .sorted
        []).runAt ⟨0, 0⟩ s).2
    ∃ z, (add 2 "m" (add 1 "n" (add 1 "m" Store.empty))).data[Str.lit "k"]? =
        some (.sortedSet z) ∧
      ∃! e, e ∈ z.tree.toList ∧ Str.utf8 "m" ∈ e.2 := by
  intro add
  have hadd : ∀ (score : UInt64) (text member : String) (s : Store), Visited bitText s →
      tryFrom bitText [bulk (Str.utf8 "ZADD"), bulk (Str.utf8 "k"), bulk (Str.utf8 text),
        bulk (Str.utf8 member)] = .ok (.zAdd (Str.lit "k") [(⟨score⟩, Str.utf8 member)]) →
      Visited bitText (add score member s) :=
    fun score text member s hs hparse => .command s .sorted [] ⟨0, 0⟩ _ _ hs hparse
  have hvisited := hadd 2 "2" "m" _ (hadd 1 "1" "n" _ (hadd 1 "1" "m" _ .empty rfl) rfl) rfl
  have hvalue : (add 2 "m" (add 1 "n" (add 1 "m" Store.empty))).data[Str.lit "k"]? =
      some (.sortedSet (Store.zInsert ⟨2⟩ (Str.utf8 "m") (Store.zInsert ⟨1⟩ (Str.utf8 "n")
        (Store.zInsert ⟨1⟩ (Str.utf8 "m") ⟨∅, ∅⟩)))) := rfl
  obtain ⟨-, -, hone⟩ := visited_sorted_set bitText _ hvisited (Str.lit "k") _ hvalue
  refine ⟨_, hvalue, (hone (Str.utf8 "m")).1 ?_⟩
  simp [Store.zInsert]

end FireRedis
