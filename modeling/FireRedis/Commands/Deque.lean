import FireRedis.Commands.Transparent
import FireRedis.Commands.Writes
import FireRedis.Store.Ranges

/-!
# Lists as double-ended queues

The list commands on one key without a deadline do to an abstract sequence what
their names say. An empty sequence is an absent key: the pop that empties the
list removes it, and the next push makes it again.
-/

namespace FireRedis
open Std Window

/-- A command on a list; a push at the back has at least one value. -/
inductive DequeOp where
  | lPush (val : Bytes)
  | rPush (val : Bytes) (vals : List Bytes)
  | lPop
  | rPop
  | lLen
  | lIndex (index : Int64)

/-- The element at a position, where a negative one counts from the end. -/
def elementAt (q : List Bytes) (i : ℤ) : Option Bytes :=
  if 0 ≤ fromEnd q.length i then q[(fromEnd q.length i).toNat]? else none

namespace DequeOp

def command (key : Str) : DequeOp → Command
  | lPush val => .lPush key [val]
  | rPush val vals => .rPush key (val :: vals)
  | lPop => .lPop key
  | rPop => .rPop key
  | lLen => .lLen key
  | lIndex index => .lIndex key index

def next (q : List Bytes) : DequeOp → List Bytes
  | lPush val => val :: q
  | rPush val vals => q ++ val :: vals
  | lPop => q.tail
  | rPop => q.dropLast
  | _ => q

def reply (q : List Bytes) : DequeOp → Value
  | lPush val => count (val :: q).length
  | rPush val vals => count (q ++ val :: vals).length
  | lPop => bulkOrNull q.head?
  | rPop => bulkOrNull q.getLast?
  | lLen => count q.length
  | lIndex index => bulkOrNull (elementAt q index.toInt)

/-- The replies of a sequence of commands, and what they leave. -/
def run : List DequeOp → List Bytes → List Value × List Bytes
  | [], q => ([], q)
  | op :: ops, q => (op.reply q :: (run ops (op.next q)).1, (run ops (op.next q)).2)

end DequeOp

/-- The key holds the sequence, and no deadline. -/
structure HoldsDeque (key : Str) (q : List Bytes) (s : Store) : Prop where
  deadline : s.expirations[key]? = none
  items : s.data[key]? = if q = [] then none else some (.list q)

namespace HoldsDeque

section Views

variable {key : Str} {q : List Bytes} {s : Store} (h : HoldsDeque key q s) (t : Instant)
include h

theorem live : s.live t key = if q = [] then none else some ⟨.list q, none⟩ := by
  rw [Store.live, h.deadline, h.items]
  split <;> rfl

theorem pending : s.pending t key = none := by
  rw [Store.pending, h.deadline]
  rfl

theorem check : s.check t key = s := by
  have hvalue : (s.live t key).map Entry.value = s.data[key]? := by
    rw [h.live, h.items]
    split <;> rfl
  rw [Store.check, hvalue, h.pending, ← h.deadline]
  exact s.put_self key

theorem under : Kind.list.Under s t key q := by
  rw [Kind.Under, h.live]
  by_cases hq : q = []
  · rw [if_pos hq]
    exact hq
  · rw [if_neg hq]
    rfl

theorem put (q' : List Bytes) (hne : q' ≠ []) :
    HoldsDeque key q' (s.put key (some (.list q')) (s.pending t key)) := by
  refine ⟨?_, ?_⟩
  · rw [Store.put_expirations, if_pos rfl, h.pending]
  · rw [Store.put_data, if_pos rfl, if_neg hne]

end Views

/-! ### One command -/

section Step

variable {key : Str} {q : List Bytes} {s : Store} (h : HoldsDeque key q s) (now : Reading)
include h

theorem viewed {α : Type} (absent value : α) (f : StoredValue → StoreM α) (g : α → Value)
    (hf : f (.list q) = pure value) (hempty : q = [] → value = absent) :
    (withType key "list" (do return g (← Store.view key absent f))).runAt now s =
      (.ok (g value), s) := by
  have hview := Store.view_spec s now key absent f
  rw [h.live, h.check] at hview
  have hguard := guard_spec Kind.list now (h.under now.instant) (do
    return g (← Store.view key absent f))
  rw [h.check] at hguard
  by_cases hq : q = []
  · rw [if_pos hq] at hview
    rw [hempty hq]
    exact hguard.trans (runAt_bind_ok now hview)
  · rw [if_neg hq] at hview
    dsimp only at hview
    rw [hf] at hview
    exact hguard.trans (runAt_bind_ok now hview)

theorem popped (f : StoredValue → Option Bytes × StoredValue × Bool) (value : Option Bytes)
    (q' : List Bytes) (hf : f (.list q) = (value, .list q', q'.isEmpty))
    (hempty : q = [] → value = none ∧ q' = []) : ∃ s',
    (withType key "list" (do return bulkOrNull (← Store.amend key none f))).runAt now s =
      (.ok (bulkOrNull value), s') ∧ HoldsDeque key q' s' := by
  have hamend := Store.amend_spec s now key none f
  rw [h.live, h.check] at hamend
  have hguard := guard_spec Kind.list now (h.under now.instant) (do
    return bulkOrNull (← Store.amend key none f))
  rw [h.check] at hguard
  by_cases hq : q = []
  · obtain ⟨rfl, rfl⟩ := hempty hq
    rw [if_pos hq] at hamend
    refine ⟨s, hguard.trans (runAt_bind_ok now hamend), ?_⟩
    rw [hq] at h
    exact h
  · rw [if_neg hq] at hamend
    dsimp only at hamend
    rw [hf] at hamend
    cases hq' : q'.isEmpty with
    | true =>
      simp only [hq', if_true] at hamend
      refine ⟨_, hguard.trans (runAt_bind_ok now hamend), ?_, ?_⟩
      · rw [Store.put_expirations, if_pos rfl]
      · rw [Store.put_data, if_pos rfl, if_pos (List.isEmpty_iff.mp hq')]
    | false =>
      simp only [hq', Bool.false_eq_true, if_false] at hamend
      refine ⟨_, hguard.trans (runAt_bind_ok now hamend), ?_, ?_⟩
      · rw [Store.put_expirations, if_pos rfl]
      · rw [Store.put_data, if_pos rfl, if_neg (by simpa using hq')]

end Step

end HoldsDeque

/-- Indices past either end, the smallest number included, become positions that no
list has. -/
theorem getElem_asUsize {q : List Bytes} (hlen : q.length ≤ isizeMax) (i : Int64) :
    q[Store.asUsize (if i < 0 then Int64.ofNat q.length + i else i)]? = elementAt q i.toInt := by
  have hpos := Store.asUsize_toInt (if i < 0 then Int64.ofNat q.length + i else i)
  rw [Store.toInt_fromEnd hlen] at hpos
  have hlow := Store.fromEnd_ge q.length i
  unfold isizeMax at hlen
  rw [elementAt]
  by_cases hneg : fromEnd q.length i.toInt < 0
  · rw [if_pos hneg] at hpos
    rw [if_neg (Int.not_le.mpr hneg), List.getElem?_eq_none (by omega)]
  · rw [if_neg hneg] at hpos
    rw [if_pos (Int.not_lt.mp hneg), ← hpos, Int.toNat_natCast]

theorem deque_step (F : FloatText) (ord : IterOrder) (info : Bytes) (now : Reading) {key : Str}
    {q : List Bytes} {s : Store} (h : HoldsDeque key q s) (hlen : q.length ≤ isizeMax)
    (op : DequeOp) : ∃ s',
    ((op.command key).execute F ord info).runAt now s = (.ok (op.reply q), s') ∧
      HoldsDeque key (op.next q) s' := by
  cases op with
  | lPush val =>
    exact ⟨_, lPush_spec now (h.under now.instant) (List.cons_ne_nil val []),
      h.put now.instant _ (List.cons_ne_nil val q)⟩
  | rPush val vals =>
    have hrun := rPush_spec now (h.under now.instant) (List.cons_ne_nil val vals)
    rw [← List.length_append] at hrun
    have hne : q ++ val :: vals ≠ [] := List.append_ne_nil_of_right_ne_nil q (List.cons_ne_nil _ _)
    exact ⟨_, hrun, h.put now.instant _ hne⟩
  | lPop => exact h.popped now Store.popFront q.head? q.tail rfl (by rintro rfl; exact ⟨rfl, rfl⟩)
  | rPop =>
    exact h.popped now Store.popBack q.getLast? q.dropLast rfl (by rintro rfl; exact ⟨rfl, rfl⟩)
  | lLen =>
    exact ⟨s, h.viewed now 0 q.length _ count rfl (by rintro rfl; rfl), h⟩
  | lIndex index =>
    refine ⟨s, ?_, h⟩
    rw [DequeOp.reply, ← getElem_asUsize hlen]
    exact h.viewed now none _ _ bulkOrNull rfl (by rintro rfl; rfl)

theorem HoldsDeque.exists {key : Str} {q : List Bytes} {s : Store} (h : HoldsDeque key q s)
    (now : Reading) : ((Store.existsKey key).runAt now s).1 = .ok (decide (q ≠ [])) := by
  rw [Store.existsKey_spec, h.live]
  by_cases hq : q = [] <;> simp [hq]

/-! ### Sequences of commands -/

section Runs

variable (F : FloatText) (ord : IterOrder) (info : Bytes) (key : Str)

/-- The commands, each at its own reading of the clock. -/
def dequeEvents (ops : List (DequeOp × Reading)) : List Event :=
  ops.map fun op => .command (op.1.command key) op.2

/-- Every reply is that of the abstract sequence, and the key exists exactly while
the sequence is not empty. A list in memory has at most `isizeMax` elements. -/
theorem list_refines_deque (s : Store) (q : List Bytes) (h : HoldsDeque key q s)
    (ops : List (DequeOp × Reading))
    (hlen : ∀ n, (DequeOp.run ((ops.map Prod.fst).take n) q).2.length ≤ isizeMax) :
    let real := runEvents F ord info (dequeEvents key ops) s
    let abstract := DequeOp.run (ops.map Prod.fst) q
    real.1.map Prod.snd = abstract.1.map .ok ∧ HoldsDeque key abstract.2 real.2 ∧
      ∀ now, ((Store.existsKey key).runAt now real.2).1 = .ok (decide (abstract.2 ≠ [])) := by
  suffices hrun : (runEvents F ord info (dequeEvents key ops) s).1.map Prod.snd =
      (DequeOp.run (ops.map Prod.fst) q).1.map .ok ∧
        HoldsDeque key (DequeOp.run (ops.map Prod.fst) q).2
          (runEvents F ord info (dequeEvents key ops) s).2 from
    ⟨hrun.1, hrun.2, hrun.2.exists⟩
  induction ops generalizing s q with
  | nil => exact ⟨rfl, h⟩
  | cons op ops ih =>
    obtain ⟨op, now⟩ := op
    obtain ⟨s', hstep, hnext⟩ := deque_step F ord info now h (hlen 0) op
    obtain ⟨hreplies, hfinal⟩ := ih s' (op.next q) hnext fun n => hlen (n + 1)
    rw [dequeEvents, List.map_cons, runEvents, hstep]
    refine ⟨?_, hfinal⟩
    rw [List.map_cons, List.map_cons, DequeOp.run, List.map_cons]
    exact congrArg _ hreplies

end Runs

/-- A list that is filled, read behind both ends, emptied and filled again. -/
theorem list_refines_deque_emptied :
    let F : FloatText := noFloats
    let ops : List (DequeOp × Reading) := [(.rPush (Str.utf8 "a") [Str.utf8 "b"], ⟨1, 0⟩),
      (.lIndex Int64.minValue, ⟨2, 0⟩), (.lIndex (-1), ⟨3, 0⟩), (.lPop, ⟨4, 0⟩), (.rPop, ⟨5, 0⟩),
      (.rPop, ⟨6, 0⟩), (.lPush (Str.utf8 "c"), ⟨7, 0⟩)]
    let real := runEvents F .sorted [] (dequeEvents (Str.lit "k") ops) Store.empty
    real.1.map Prod.snd = [.ok (count 2), .ok (bulkOrNull none), .ok (bulkOrNull (Str.utf8 "b")),
      .ok (bulkOrNull (Str.utf8 "a")), .ok (bulkOrNull (Str.utf8 "b")), .ok (bulkOrNull none),
      .ok (count 1)] ∧ HoldsDeque (Str.lit "k") [Str.utf8 "c"] real.2 := by
  intro F ops real
  have hempty : HoldsDeque (Str.lit "k") [] Store.empty :=
    ⟨by simp [Store.empty], by simp [Store.empty]⟩
  have hall := list_refines_deque F .sorted [] (Str.lit "k") Store.empty [] hempty ops (by
    intro n
    by_cases hn : n < 7
    · interval_cases n <;> decide
    · have htake : (ops.map Prod.fst).take n = ops.map Prod.fst :=
        List.take_of_length_le (Nat.not_lt.mp hn)
      rw [htake]
      decide)
  exact ⟨hall.1, hall.2.1⟩

end FireRedis
