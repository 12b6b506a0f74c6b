import FireRedis.Base.Text

/-!
# Files, handles and names

A directory gives names to inodes; a handle names an inode. A handle keeps
writing to the inode it opened when a rename gives its name to another one.
Input and output do not fail.
-/

/-- A path on Unix: any bytes. -/
abbrev PathBuf := Bytes

structure FileSystem where
  names : PathBuf → Option ℕ
  contents : ℕ → Bytes
  next : ℕ
  fresh : ∀ path i, names path = some i → i < next

namespace FileSystem

def empty : FileSystem where
  names _ := none
  contents _ := []
  next := 0
  fresh _ _ h := by cases h

def found (fs : FileSystem) (path : PathBuf) : Bool := (fs.names path).isSome

def read (fs : FileSystem) (path : PathBuf) : Option Bytes := (fs.names path).map fs.contents

/-- An empty file under a path that has none. -/
def make (fs : FileSystem) (path : PathBuf) : FileSystem where
  names p := if p = path then some fs.next else fs.names p
  contents i := if i = fs.next then [] else fs.contents i
  next := fs.next + 1
  fresh p i h := by
    by_cases hp : p = path
    · obtain rfl : fs.next = i := by simpa [hp] using h
      exact Nat.lt_succ_self _
    · have hlt := fs.fresh p i (by simpa [hp] using h)
      omega

/-- `OpenOptions::new().create(true).append(true)`. -/
def openAppend (fs : FileSystem) (path : PathBuf) : ℕ × FileSystem :=
  match fs.names path with
  | some i => (i, fs)
  | none => (fs.next, fs.make path)

def write (fs : FileSystem) (handle : ℕ) (bytes : Bytes) : FileSystem where
  names := fs.names
  contents i := if i = handle then fs.contents i ++ bytes else fs.contents i
  next := fs.next
  fresh := fs.fresh

def truncate (fs : FileSystem) (handle : ℕ) : FileSystem where
  names := fs.names
  contents i := if i = handle then [] else fs.contents i
  next := fs.next
  fresh := fs.fresh

/-- `File::create`. -/
def create (fs : FileSystem) (path : PathBuf) : ℕ × FileSystem :=
  match fs.names path with
  | some i => (i, fs.truncate i)
  | none => (fs.next, fs.make path)

def rename (fs : FileSystem) (source target : PathBuf) : FileSystem where
  names p := if p = target then fs.names source else if p = source then none else fs.names p
  contents := fs.contents
  next := fs.next
  fresh p i h := by
    by_cases ht : p = target
    · exact fs.fresh source i (by simpa [ht] using h)
    · by_cases hs : p = source
      · subst hs
        simp [ht] at h
      · exact fs.fresh p i (by simpa [ht, hs] using h)

/-- The same files without the name of one of them. -/
def remove (fs : FileSystem) (path : PathBuf) : FileSystem where
  names p := if p = path then none else fs.names p
  contents := fs.contents
  next := fs.next
  fresh p i h := by
    by_cases hp : p = path
    · simp [hp] at h
    · exact fs.fresh p i (by simpa [hp] using h)

@[simp] theorem read_remove (fs : FileSystem) (path : PathBuf) :
    (fs.remove path).read path = none := by
  simp [read, remove]

@[simp] theorem write_nil (fs : FileSystem) (handle : ℕ) : fs.write handle [] = fs := by
  simp [write]

theorem write_write (fs : FileSystem) (handle : ℕ) (a b : Bytes) :
    (fs.write handle a).write handle b = fs.write handle (a ++ b) := by
  simp only [write, mk.injEq, true_and, and_true]
  funext i
  split <;> simp

@[simp] theorem names_write (fs : FileSystem) (handle : ℕ) (bytes : Bytes) (path : PathBuf) :
    (fs.write handle bytes).names path = fs.names path := rfl

@[simp] theorem contents_write (fs : FileSystem) (handle i : ℕ) (bytes : Bytes) :
    (fs.write handle bytes).contents i =
      if i = handle then fs.contents i ++ bytes else fs.contents i := rfl

theorem create_names (fs : FileSystem) (path : PathBuf) :
    (fs.create path).2.names path = some (fs.create path).1 ∧
      (fs.create path).2.contents (fs.create path).1 = [] := by
  cases hn : fs.names path with
  | none => simp [create, hn, make]
  | some i => simp [create, hn, truncate]

theorem read_rename (fs : FileSystem) {source target : PathBuf} {i : ℕ}
    (h : fs.names source = some i) :
    (fs.rename source target).read target = some (fs.contents i) := by
  simp [read, rename, h]

theorem openAppend_of_none {fs : FileSystem} {path : PathBuf} (h : fs.names path = none) :
    fs.openAppend path = (fs.next, fs.make path) := by
  simp [openAppend, h]

theorem openAppend_names_ne (fs : FileSystem) {path p : PathBuf} (h : p ≠ path) :
    (fs.openAppend path).2.names p = fs.names p := by
  cases hn : fs.names path with
  | none => simp [openAppend, hn, make, h]
  | some i => simp [openAppend, hn]

theorem create_names_ne (fs : FileSystem) {path p : PathBuf} (h : p ≠ path) :
    (fs.create path).2.names p = fs.names p := by
  cases hn : fs.names path with
  | none => simp [create, hn, make, h]
  | some i => simp [create, hn, truncate]

theorem rename_names_ne (fs : FileSystem) {source target p : PathBuf} (hs : p ≠ source)
    (ht : p ≠ target) : (fs.rename source target).names p = fs.names p := by
  simp [rename, hs, ht]

/-- No inode has both names. -/
def Apart (fs : FileSystem) (p q : PathBuf) : Prop := ∀ i, fs.names p = some i → fs.names q ≠ some i

theorem create_handle_ne {fs : FileSystem} {path p : PathBuf} (h : fs.Apart p path) {i : ℕ}
    (hi : fs.names p = some i) : (fs.create path).1 ≠ i := by
  cases hn : fs.names path with
  | none =>
    have hlt := fs.fresh p i hi
    simp only [create, hn]
    omega
  | some j =>
    simp only [create, hn]
    rintro rfl
    exact h j hi hn

theorem read_create_ne {fs : FileSystem} {path p : PathBuf} (hp : p ≠ path)
    (h : fs.Apart p path) : (fs.create path).2.read p = fs.read p := by
  rw [read, read, create_names_ne fs hp]
  cases hi : fs.names p with
  | none => rfl
  | some i =>
    have hne := (create_handle_ne h hi).symm
    cases hn : fs.names path with
    | none =>
      simp only [create, hn] at hne
      simp [create, hn, make, hne]
    | some j =>
      simp only [create, hn] at hne
      simp [create, hn, truncate, hne]

/-- What goes to a handle that a path no longer names is not in the file at the path. -/
theorem read_write_ne (fs : FileSystem) {handle : ℕ} {path : PathBuf}
    (h : fs.names path ≠ some handle) (bytes : Bytes) :
    (fs.write handle bytes).read path = fs.read path := by
  cases hn : fs.names path with
  | none => simp [read, hn]
  | some i =>
    have hne : i ≠ handle := by
      rintro rfl
      exact h hn
    simp [read, hn, hne]

end FileSystem

/-! ### Extensions -/

/-- What stands before and after the last `sep`. -/
def splitLast (sep : UInt8) : Bytes → Option (Bytes × Bytes)
  | [] => none
  | b :: bs =>
    match splitLast sep bs with
    | some (before, after) => some (b :: before, after)
    | none => if b = sep then some ([], bs) else none

/-- `Path::with_extension`, for a path whose last component is the name of a file
other than `..x`. Elsewhere the standard library has other answers (of a path that
ends in a slash, `.` or `..`, and `..` for `..x`), and there the file at the path
or the one at the answer cannot be created. -/
def withExtension (path : PathBuf) (extension : String) : PathBuf :=
  let (dir, name) :=
    match splitLast 0x2F path with
    | some (dir, name) => (dir ++ [0x2F], name)
    | none => ([], path)
  let stem :=
    match splitLast 0x2E name with
    | some ([], _) => name
    | some (stem, _) => stem
    | none => name
  dir ++ stem ++ 0x2E :: Str.utf8 extension

example : withExtension (Str.utf8 "data.d/dump.rdb") "tmp" = Str.utf8 "data.d/dump.tmp" := by
  decide

theorem splitLast_eq_none {sep : UInt8} {bs : Bytes} (h : splitLast sep bs = none) :
    sep ∉ bs := by
  induction bs with
  | nil => simp
  | cons b bs ih =>
    unfold splitLast at h
    split at h
    · cases h
    · rename_i hbs
      split at h
      · cases h
      · rename_i hb
        simp [ih hbs, Ne.symm hb]

theorem splitLast_eq_some {sep : UInt8} {bs before after : Bytes}
    (h : splitLast sep bs = some (before, after)) :
    bs = before ++ sep :: after ∧ sep ∉ after := by
  induction bs generalizing before with
  | nil => cases h
  | cons b bs ih =>
    unfold splitLast at h
    split at h
    · rename_i before' after' hbs
      obtain ⟨rfl, rfl⟩ := Prod.mk.inj (Option.some.inj h)
      obtain ⟨hcat, hnot⟩ := ih hbs
      exact ⟨by rw [hcat]; rfl, hnot⟩
    · rename_i hbs
      split at h
      · rename_i hb
        obtain ⟨rfl, rfl⟩ := Prod.mk.inj (Option.some.inj h)
        exact ⟨by rw [hb]; rfl, splitLast_eq_none hbs⟩
      · cases h

theorem withExtension_ne (path : PathBuf) (extension : String)
    (hdot : 0x2E ∈ Str.utf8 extension) : withExtension path extension ≠ path := by
  have hname : ∀ name : Bytes, (match splitLast 0x2E name with
      | some ([], _) => name
      | some (stem, _) => stem
      | none => name) ++ 0x2E :: Str.utf8 extension ≠ name := by
    intro name h
    split at h
    · simp at h
    · rename_i stem after _ hsplit
      obtain ⟨hcat, hnot⟩ := splitLast_eq_some hsplit
      rw [hcat] at h
      have hafter := List.append_cancel_left h
      exact hnot ((List.cons.inj hafter).2 ▸ hdot)
    · simp at h
  intro h
  unfold withExtension at h
  cases hsplit : splitLast 0x2F path with
  | none =>
    rw [hsplit] at h
    exact hname path (by simpa using h)
  | some p =>
    obtain ⟨dir, name⟩ := p
    obtain ⟨hcat, -⟩ := splitLast_eq_some hsplit
    rw [hsplit] at h
    simp only [hcat, List.append_assoc, List.cons_append] at h
    have htail := (List.cons.inj (List.append_cancel_left h)).2
    exact hname name htail
