import FireRedis.Concurrency.SetNx

/-!
# Pushes and pops that take turns on one list

A pop that empties the list removes the key in a step of its own. Where the
list is still empty in that step, no element is lost: the elements pushed are
those popped and those still in the list.
-/

namespace FireRedis
open Std Pool

inductive ListCommand where
  | lPush (vals : List Bytes)
  | rPush (vals : List Bytes)
  | lPop
  | rPop

namespace ListCommand

def handle (key : Str) : ListCommand → StoreM Value
  | lPush vals => handleLPush key vals
  | rPush vals => handleRPush key vals
  | lPop => handleLPop key
  | rPop => handleRPop key

def vals : ListCommand → List Bytes
  | lPush vals => vals
  | rPush vals => vals
  | _ => []

/-- The elements of a push that has its reply. -/
def acked (cmd : ListCommand) : StoreM Value → Multiset Bytes
  | .done (.integer _) => cmd.vals
  | _ => 0

/-- The element that a pop has given to its client. -/
def returned : StoreM Value → Multiset Bytes
  | .done (.bulkString (some value)) => {value}
  | _ => 0

variable (key : Str)

def contents (s : Store) : Multiset Bytes :=
  match s.data[key]? with
  | some (.list items) => items
  | _ => 0

/-- What is left of a push: `rest` still goes into the list. -/
inductive Pushing : Multiset Bytes → StoreM Value → Prop
  | done (n : Int64) : Pushing 0 (.done (.integer n))
  | check {rest : Multiset Bytes} (k : Option Instant → StoreM Value) (h : Pushing rest (k none)) :
      Pushing rest (.call (.expirations (.get key)) k)
  | test {rest : Multiset Bytes} (k : Option StoredValue → StoreM Value)
      (habsent : Pushing rest (k none)) (hlist : ∀ items, Pushing rest (k (some (.list items)))) :
      Pushing rest (.call (.data (.get key)) k)
  | push {rest : Multiset Bytes} (value : Bytes) (f : Option StoredValue → Option StoredValue)
      (k : Option StoredValue → StoreM Value) (habsent : f none = some (.list [value]))
      (hlist : ∀ items : List Bytes, ∃ items' : List Bytes,
        f (some (.list items)) = some (.list items') ∧ (items' : Multiset Bytes) = value ::ₘ items)
      (h : ∀ old, Pushing rest (k old)) :
      Pushing (value ::ₘ rest) (.call (.data (.alter key f)) k)

/-- What is left of a pop that has taken `value`. -/
inductive Popped (value : Option Bytes) : StoreM Value → Prop
  | done : Popped value (.done (bulkOrNull value))
  | remove (k : Option StoredValue → StoreM Value) (h : ∀ old, Popped value (k old)) :
      Popped value (.call (.data (.alter key fun _ => none)) k)
  | clear (k : Option Instant → StoreM Value) (h : ∀ old, Popped value (k old)) :
      Popped value (.call (.expirations (.alter key fun _ => none)) k)

/-- What is left of a pop that has not taken anything. -/
inductive Popping : StoreM Value → Prop
  | check (k : Option Instant → StoreM Value) (h : Popping (k none)) :
      Popping (.call (.expirations (.get key)) k)
  | test (k : Option StoredValue → StoreM Value) (habsent : Popping (k none))
      (hlist : ∀ items, Popping (k (some (.list items)))) : Popping (.call (.data (.get key)) k)
  | pop (f : Option StoredValue → Option StoredValue) (k : Option StoredValue → StoreM Value)
      (hnone : f none = none) (habsent : k none = .done (bulkOrNull none))
      (hlist : ∀ items : List Bytes, ∃ (value : Option Bytes) (items' : List Bytes),
        f (some (.list items)) = some (.list items') ∧
        (items : Multiset Bytes) = value.elim 0 singleton + (items' : Multiset Bytes) ∧
        Popped key value (k (some (.list items)))) :
      Popping (.call (.data (.alter key f)) k)

/-! ### The handlers -/

section Handlers

theorem withType_calls (body : StoreM Value) : ∃ k, withType key "list" body =
    .call (.expirations (.get key)) k ∧ ∃ k', k (none : Option Instant) =
      .call (.data (.get key)) k' ∧ k' (none : Option StoredValue) = body ∧
      ∀ items, k' (some (.list items) : Option StoredValue) = body :=
  ⟨_, rfl, _, rfl, rfl, fun _ => rfl⟩

theorem upsert_calls {α : Type} (init : StoredValue) (f : StoredValue → α × StoredValue)
    (g : α → StoreM Value) : ∃ k, (Store.upsert key init f >>= g) =
    .call (.expirations (.get key)) k ∧ ∃ k', k (none : Option Instant) =
      .call (.data (.alter key fun value => some (f (value.getD init)).2)) k' ∧
      ∀ old : Option StoredValue, k' old = g (f (old.getD init)).1 :=
  ⟨_, rfl, _, rfl, fun _ => rfl⟩

theorem amend_calls {α : Type} (absent : α) (f : StoredValue → α × StoredValue × Bool)
    (g : α → StoreM Value) : ∃ k, (Store.amend key absent f >>= g) =
    .call (.expirations (.get key)) k ∧ ∃ k', k (none : Option Instant) =
      .call (.data (.alter key fun value => value.map fun v => (f v).2.1)) k' ∧
      k' (none : Option StoredValue) = g absent ∧ ∀ v : StoredValue, k' (some v) =
        if (f v).2.2 then dataRemove key >>= fun _ => expirationsRemove key >>= fun _ => g (f v).1
        else g (f v).1 := by
  refine ⟨_, rfl, _, rfl, rfl, fun v => ?_⟩
  show (if (f v).2.2 then (do
    let _ ← dataRemove key
    let _ ← expirationsRemove key
    return (f v).1) else return (f v).1 : StoreM α) >>= g = _
  split <;> rfl

variable {key}

theorem Pushing.withType {rest : Multiset Bytes} {body : StoreM Value} (h : Pushing key rest body) :
    Pushing key rest (withType key "list" body) := by
  obtain ⟨k, hk, k', hk', habsent, hlist⟩ := withType_calls key body
  rw [hk]
  refine .check k ?_
  rw [hk']
  refine .test k' (habsent ▸ h) fun items => ?_
  rw [hlist items]
  exact h

theorem Popping.withType {body : StoreM Value} (h : Popping key body) :
    Popping key (withType key "list" body) := by
  obtain ⟨k, hk, k', hk', habsent, hlist⟩ := withType_calls key body
  rw [hk]
  refine .check k ?_
  rw [hk']
  refine .test k' (habsent ▸ h) fun items => ?_
  rw [hlist items]
  exact h

/-- A function that adds one element to a list. -/
def Adds (value : Bytes) (f : StoredValue → ℕ × StoredValue) : Prop :=
  ∀ items, ∃ items', (f (.list items)).2 = .list items' ∧
    (items' : Multiset Bytes) = value ::ₘ (items : Multiset Bytes)

theorem adds_pushFront (value : Bytes) : Adds value (Store.pushFront value) := fun items =>
  ⟨value :: items, rfl, rfl⟩

theorem adds_pushBack (value : Bytes) : Adds value (Store.pushBack value) := fun items =>
  ⟨items ++ [value], rfl, Multiset.coe_eq_coe.mpr (List.perm_append_singleton value items)⟩

variable (key) in
theorem pushing_all {f : Bytes → StoredValue → ℕ × StoredValue} (hf : ∀ v, Adds v (f v))
    (vals : List Bytes) (n : ℕ) : Pushing key vals
      (vals.foldlM (fun _ val => Store.upsert key (.list []) (f val)) n >>= fun len =>
        return count len) := by
  induction vals generalizing n with
  | nil => exact .done _
  | cons val vals ih =>
    rw [List.foldlM_cons, bind_assoc]
    obtain ⟨k, hk, k', hk', hnext⟩ := upsert_calls key (.list []) (f val) fun m =>
      vals.foldlM (fun _ val => Store.upsert key (.list []) (f val)) m >>= fun len =>
        return count len
    rw [hk]
    refine .check k ?_
    rw [hk', ← Multiset.cons_coe]
    obtain ⟨items, hitems, hperm⟩ := hf val []
    refine .push val _ k' ?_ (fun items => ?_) fun old => ?_
    · have hone : items = [val] := List.perm_singleton.mp (Multiset.coe_eq_coe.mp hperm)
      rw [Option.getD_none, hitems, hone]
    · obtain ⟨items', hitems', hperm'⟩ := hf val items
      exact ⟨items', by rw [Option.getD_some, hitems'], hperm'⟩
    · rw [hnext old]
      exact ih _

/-- A function that takes at most one element out of a list. -/
def Takes (f : StoredValue → Option Bytes × StoredValue × Bool) : Prop :=
  ∀ items, ∃ items', (f (.list items)).2 = (.list items', items'.isEmpty) ∧
    (items : Multiset Bytes) = (f (.list items)).1.elim 0 singleton + (items' : Multiset Bytes)

theorem takes_popFront : Takes Store.popFront := by
  intro items
  refine ⟨items.tail, rfl, ?_⟩
  cases items with
  | nil => rfl
  | cons value items => rfl

theorem takes_popBack : Takes Store.popBack := by
  intro items
  refine ⟨items.dropLast, rfl, ?_⟩
  show (items : Multiset Bytes) =
    items.getLast?.elim 0 singleton + (items.dropLast : Multiset Bytes)
  rcases items.eq_nil_or_concat with rfl | ⟨items, value, rfl⟩
  · rfl
  · rw [List.concat_eq_append, List.getLast?_concat, List.dropLast_concat, Option.elim_some,
      ← Multiset.coe_add, ← Multiset.coe_singleton, add_comm]

theorem popping_one {f : StoredValue → Option Bytes × StoredValue × Bool} (hf : Takes f) :
    Popping key (Store.amend key none f >>= fun value => return bulkOrNull value) := by
  obtain ⟨k, hk, k', hk', habsent, hsome⟩ := amend_calls key none f fun value =>
    (return bulkOrNull value)
  rw [hk]
  refine .check k ?_
  rw [hk']
  refine .pop _ k' rfl habsent fun items => ?_
  obtain ⟨items', hnew, hperm⟩ := hf items
  refine ⟨(f (.list items)).1, items', ?_, hperm, ?_⟩
  · rw [Option.map_some, hnew]
  · rw [hsome]
    split
    · exact .remove _ fun _ => .clear _ fun _ => .done
    · exact .done

variable (key) in
theorem handle_spec (cmd : ListCommand) : Pushing key cmd.vals (cmd.handle key) ∨
    cmd.vals = [] ∧ Popping key (cmd.handle key) := by
  cases cmd with
  | lPush vals =>
    refine Or.inl (Pushing.withType ?_)
    show Pushing key (vals : Multiset Bytes) _
    cases vals with
    | nil => exact .done 0
    | cons val vals =>
      have hall := pushing_all key adds_pushFront (val :: vals).reverse 0
      rw [Multiset.coe_reverse] at hall
      exact hall
  | rPush vals =>
    refine Or.inl (Pushing.withType ?_)
    show Pushing key (vals : Multiset Bytes) _
    cases vals with
    | nil => exact .done 0
    | cons val vals => exact pushing_all key adds_pushBack (val :: vals) 0
  | lPop => exact Or.inr ⟨rfl, Popping.withType (popping_one takes_popFront)⟩
  | rPop => exact Or.inr ⟨rfl, Popping.withType (popping_one takes_popBack)⟩

end Handlers

/-! ### The run -/

theorem run_alter (f : Option StoredValue → Option StoredValue) (t : Reading) (s : Store) :
    (Call.run t (.data (.alter key f)) s).2.data[key]? = f s.data[key]? :=
  ExtTreeMap.getElem?_alter_self

variable {key} in
theorem Pushing.unique {rest rest' : Multiset Bytes} {prog : StoreM Value}
    (h : Pushing key rest prog) (h' : Pushing key rest' prog) : rest = rest' := by
  induction h generalizing rest' with
  | done n =>
    cases h'
    rfl
  | check k h ih =>
    cases h' with
    | check _ h' => exact ih h'
  | test k habsent hlist ih _ =>
    cases h' with
    | test _ habsent' _ => exact ih habsent'
  | push value f k habsent hlist h ih =>
    cases h' with
    | push value' _ _ habsent' _ h' =>
      rw [habsent] at habsent'
      obtain rfl : value = value' := by simpa using habsent'
      rw [ih none (h' none)]

/-- How far a client is, with what it has pushed or taken. -/
inductive Stage where
  | pushing (done rest : Multiset Bytes)
  | popping
  | popped (value : Option Bytes)

def Stage.pushed : Stage → Multiset Bytes
  | pushing done _ => done
  | _ => 0

def Stage.taken : Stage → Multiset Bytes
  | popped value => value.elim 0 singleton
  | _ => 0

def Stage.Of (cmd : ListCommand) : Stage → StoreM Value → Prop
  | pushing done rest, prog => done + rest = cmd.vals ∧ Pushing key rest prog
  | popping, prog => cmd.vals = [] ∧ Popping key prog
  | popped value, prog => cmd.vals = [] ∧ Popped key value prog

def HoldsList (s : Store) : Prop :=
  s.data[key]? = none ∨ ∃ items, s.data[key]? = some (.list items)

variable {ι : Type} [DecidableEq ι] [Fintype ι] (cmds : ι → ListCommand)

def clients (s : Store) : Clients ι := ⟨s, fun i => (cmds i).handle key⟩

/-- A pop removes the key only while the list that it emptied is still empty. -/
def RemovesEmpty (p : Clients ι) (i : ι) : Prop :=
  (p.progs i).next = some (.data (.alter key fun _ => none)) → contents key p.state = 0

/-- Every client has its reply or has not begun. -/
def Quiescent (p : Clients ι) : Prop :=
  ∀ i, (∃ v, p.Replied i v) ∨ p.progs i = (cmds i).handle key

structure Inv (initial : Multiset Bytes) (stage : ι → Stage) (p : Clients ι) : Prop where
  stages : ∀ i, (stage i).Of key (cmds i) (p.progs i)
  deadline : p.state.expirations[key]? = none
  held : HoldsList key p.state
  conserved : initial + ∑ i, (stage i).pushed = ∑ i, (stage i).taken + contents key p.state

section Step

variable {key cmds} {initial : Multiset Bytes} {stage : ι → Stage} {p : Clients ι}
  (hp : Inv key cmds initial stage p) {i : ι} (t : Reading)
include hp

theorem Inv.move {x : Stage} {s : Store} {prog : StoreM Value} (hof : x.Of key (cmds i) prog)
    (hexp : s.expirations[key]? = none) (hheld : HoldsList key s)
    (hsum : contents key s + x.taken + (stage i).pushed =
      contents key p.state + (stage i).taken + x.pushed) :
    Inv key cmds initial (Function.update stage i x) ⟨s, Function.update p.progs i prog⟩ := by
  refine ⟨?_, hexp, hheld, ?_⟩
  · exact update_rel (r := fun j (x : Stage) prog => x.Of key (cmds j) prog) hp.stages i hof
  · have hpushed := sum_update Stage.pushed stage i x
    have htaken := sum_update Stage.taken stage i x
    have hall : initial + ∑ j, (Function.update stage i x j).pushed +
        ((stage i).pushed + (stage i).taken) =
        ∑ j, (Function.update stage i x j).taken + contents key s +
        ((stage i).pushed + (stage i).taken) := by
      calc initial + ∑ j, (Function.update stage i x j).pushed +
            ((stage i).pushed + (stage i).taken)
          = initial + (∑ j, (Function.update stage i x j).pushed + (stage i).pushed) +
            (stage i).taken := by abel
        _ = (initial + ∑ j, (stage j).pushed) + x.pushed + (stage i).taken := by
            rw [hpushed]
            abel
        _ = ∑ j, (stage j).taken + (contents key p.state + (stage i).taken + x.pushed) := by
            rw [hp.conserved]
            abel
        _ = (∑ j, (stage j).taken + x.taken) + contents key s + (stage i).pushed := by
            rw [← hsum]
            abel
        _ = ∑ j, (Function.update stage i x j).taken + contents key s +
            ((stage i).pushed + (stage i).taken) := by
            rw [← htaken]
            abel
    exact add_right_cancel hall

theorem Inv.quiet {x : Stage} {s : Store} {prog : StoreM Value} (hof : x.Of key (cmds i) prog)
    (hexp : s.expirations[key]? = none) (hdata : s.data[key]? = p.state.data[key]?)
    (hpushed : x.pushed = (stage i).pushed) (htaken : x.taken = (stage i).taken) :
    Inv key cmds initial (Function.update stage i x) ⟨s, Function.update p.progs i prog⟩ := by
  have hcontents : contents key s = contents key p.state := by
    rw [contents, contents, hdata]
  refine hp.move hof hexp ?_ ?_
  · rw [HoldsList, hdata]
    exact hp.held
  · rw [hcontents, hpushed, htaken]

/-- A call that changes nothing. -/
theorem Inv.look {c : Call} {k : c.Answer → StoreM Value} (hprog : p.progs i = .call c k)
    (hsame : (Call.run t c p.state).2 = p.state)
    (hof : (stage i).Of key (cmds i) (k (Call.run t c p.state).1)) :
    ∃ stage', Inv key cmds initial stage' (advance Call.run i t p) := by
  rw [advance_call hprog, hsame]
  exact ⟨_, hp.quiet hof hp.deadline rfl rfl rfl⟩

omit [DecidableEq ι] in
theorem Inv.found {q : StoreM Value → Prop} {k : Option StoredValue → StoreM Value}
    (habsent : q (k none)) (hlist : ∀ items, q (k (some (.list items)))) :
    q (k p.state.data[key]?) := by
  rcases hp.held with hnone | ⟨items, hitems⟩
  · rw [hnone]
    exact habsent
  · rw [hitems]
    exact hlist items

theorem Inv.step_pushing {done rest : Multiset Bytes} (hstage : stage i = .pushing done rest) :
    ∃ stage', Inv key cmds initial stage' (advance Call.run i t p) := by
  have hi := hp.stages i
  rw [hstage] at hi
  obtain ⟨hvals, hpush⟩ := hi
  generalize hprog : p.progs i = prog at hpush
  cases hpush with
  | done n =>
    rw [advance_ended (by rw [hprog]; rfl)]
    exact ⟨stage, hp⟩
  | check k h =>
    have hnext : Pushing key rest (k p.state.expirations[key]?) := by
      rw [hp.deadline]
      exact h
    exact hp.look t hprog rfl (by rw [hstage]; exact ⟨hvals, hnext⟩)
  | test k habsent hlist =>
    have hnext : Pushing key rest (k p.state.data[key]?) := hp.found habsent hlist
    exact hp.look t hprog rfl (by rw [hstage]; exact ⟨hvals, hnext⟩)
  | @push rest value f k habsent hlist h =>
    have hafter : ∃ items, f p.state.data[key]? = some (.list items) ∧
        (items : Multiset Bytes) = value ::ₘ contents key p.state := by
      rw [contents]
      rcases hp.held with hnone | ⟨items, hitems⟩
      · rw [hnone]
        exact ⟨[value], habsent, rfl⟩
      · rw [hitems]
        exact hlist items
    obtain ⟨items, hf, hitems⟩ := hafter
    have hdata := (run_alter key f t p.state).trans hf
    have hcontents : contents key (Call.run t (.data (.alter key f)) p.state).2 =
        value ::ₘ contents key p.state := by
      rw [contents, hdata]
      exact hitems
    rw [advance_call hprog]
    refine ⟨_, hp.move (x := .pushing (value ::ₘ done) rest) ⟨?_, h _⟩ hp.deadline
      (Or.inr ⟨items, hdata⟩) ?_⟩
    · rw [← hvals, Multiset.cons_add, Multiset.add_cons]
    · rw [hcontents, hstage]
      simp only [Stage.pushed, Stage.taken, add_zero, Multiset.cons_add, Multiset.add_cons]

theorem Inv.step_popping (hstage : stage i = .popping) :
    ∃ stage', Inv key cmds initial stage' (advance Call.run i t p) := by
  have hi := hp.stages i
  rw [hstage] at hi
  obtain ⟨hvals, hpop⟩ := hi
  generalize hprog : p.progs i = prog at hpop
  cases hpop with
  | check k h =>
    have hnext : Popping key (k p.state.expirations[key]?) := by
      rw [hp.deadline]
      exact h
    exact hp.look t hprog rfl (by rw [hstage]; exact ⟨hvals, hnext⟩)
  | test k habsent hlist =>
    have hnext : Popping key (k p.state.data[key]?) := hp.found habsent hlist
    exact hp.look t hprog rfl (by rw [hstage]; exact ⟨hvals, hnext⟩)
  | pop f k hnone habsent hlist =>
    have hself := run_alter key f t p.state
    rw [advance_call hprog]
    rcases hp.held with hdata | ⟨items, hdata⟩
    · have hnext : k p.state.data[key]? = .done (bulkOrNull none) := by
        rw [hdata, habsent]
      have hof : Stage.Of key (cmds i) (.popped none) (k p.state.data[key]?) := by
        rw [hnext]
        exact ⟨hvals, .done⟩
      refine ⟨_, hp.quiet hof hp.deadline ?_ (by rw [hstage]; rfl) (by rw [hstage]; rfl)⟩
      rw [hself, hdata, hnone]
    · obtain ⟨value, items', hf, hsplit, hpopped⟩ := hlist items
      rw [← hdata] at hpopped
      have hshrunk : (Call.run t (.data (.alter key f)) p.state).2.data[key]? =
          some (.list items') := by
        rw [hself, hdata, hf]
      have hbefore : contents key p.state = items := by
        rw [contents, hdata]
      have hafter : contents key (Call.run t (.data (.alter key f)) p.state).2 = items' := by
        rw [contents, hshrunk]
      refine ⟨_, hp.move (x := .popped value) ⟨hvals, hpopped⟩ hp.deadline
        (Or.inr ⟨items', hshrunk⟩) ?_⟩
      rw [hafter, hbefore, hstage, hsplit]
      simp only [Stage.pushed, Stage.taken, add_zero]
      rw [add_comm]

theorem Inv.step_popped {value : Option Bytes} (hstage : stage i = .popped value)
    (hguard : RemovesEmpty key p i) :
    ∃ stage', Inv key cmds initial stage' (advance Call.run i t p) := by
  have hi := hp.stages i
  rw [hstage] at hi
  obtain ⟨hvals, hpopped⟩ := hi
  generalize hprog : p.progs i = prog at hpopped
  cases hpopped with
  | done =>
    rw [advance_ended (by rw [hprog]; rfl)]
    exact ⟨stage, hp⟩
  | remove k h =>
    have hself := run_alter key (fun _ => none) t p.state
    have hbefore : contents key p.state = 0 := hguard (by rw [hprog]; rfl)
    have hafter : contents key (Call.run t (.data (.alter key fun _ => none)) p.state).2 = 0 := by
      rw [contents, hself]
    rw [advance_call hprog]
    refine ⟨_, hp.move (x := .popped value) ⟨hvals, h _⟩ hp.deadline (Or.inl hself) ?_⟩
    rw [hafter, hbefore, hstage]
  | clear k h =>
    rw [advance_call hprog]
    exact ⟨_, hp.quiet (x := .popped value) ⟨hvals, h _⟩ ExtTreeMap.getElem?_alter_self rfl
      (by rw [hstage]) (by rw [hstage])⟩

theorem Inv.step (hguard : RemovesEmpty key p i) :
    ∃ stage', Inv key cmds initial stage' (advance Call.run i t p) := by
  cases hstage : stage i with
  | pushing done rest => exact hp.step_pushing t hstage
  | popping => exact hp.step_popping t hstage
  | popped value => exact hp.step_popped t hstage hguard

end Step

theorem handle_next (cmd : ListCommand) :
    (cmd.handle key).next = some (.expirations (.get key)) := by
  cases cmd <;> rfl

section Runs

variable {key cmds}

omit [DecidableEq ι] in
theorem inv_clients {s : Store} (hkey : HoldsList key s) (hexp : s.expirations[key]? = none) :
    ∃ stage, Inv key cmds (contents key s) stage (clients key cmds s) := by
  have hstage : ∀ i, ∃ x : Stage, x.Of key (cmds i) ((cmds i).handle key) ∧ x.pushed = 0 ∧
      x.taken = 0 := by
    intro i
    rcases handle_spec key (cmds i) with hpush | ⟨hvals, hpop⟩
    · exact ⟨.pushing 0 (cmds i).vals, ⟨zero_add _, hpush⟩, rfl, rfl⟩
    · exact ⟨.popping, ⟨hvals, hpop⟩, rfl, rfl⟩
  choose stage hof hpushed htaken using hstage
  refine ⟨stage, hof, hexp, hkey, ?_⟩
  · rw [Finset.sum_eq_zero fun i _ => hpushed i, Finset.sum_eq_zero fun i _ => htaken i, add_zero,
      zero_add]
    rfl

theorem inv_runs {s : Store} {p : Clients ι} (hkey : HoldsList key s)
    (hexp : s.expirations[key]? = none)
    (h : Runs Call.run (RemovesEmpty key) (clients key cmds s) p) :
    ∃ stage, Inv key cmds (contents key s) stage p := by
  refine runs_induction (I := fun p => ∃ stage, Inv key cmds (contents key s) stage p)
    (inv_clients hkey hexp) ?_ h
  rintro p i t ⟨stage, hp⟩ hguard
  exact hp.step t hguard

/-- Where a client has its reply or has not begun, the stage is what its client knows. -/
theorem Stage.Of.settled {cmd : ListCommand} {x : Stage} {prog : StoreM Value}
    (h : x.Of key cmd prog) (hq : (∃ v, prog = .done v) ∨ prog = cmd.handle key) :
    cmd.acked prog = x.pushed ∧ returned prog = x.taken := by
  rcases hq with ⟨v, rfl⟩ | rfl
  · cases x with
    | pushing done rest =>
      obtain ⟨hvals, hpush⟩ := h
      cases hpush
      rw [add_zero] at hvals
      exact ⟨hvals.symm, rfl⟩
    | popping => cases h.2
    | popped value =>
      obtain ⟨hvals, hpopped⟩ := h
      cases hpopped
      cases value <;> exact ⟨rfl, rfl⟩
  · have hnone : cmd.acked (cmd.handle key) = 0 ∧ returned (cmd.handle key) = 0 := by
      cases cmd <;> exact ⟨rfl, rfl⟩
    rw [hnone.1, hnone.2]
    cases x with
    | pushing done rest =>
      obtain ⟨hvals, hpush⟩ := h
      have hrest : done = 0 := by
        rcases handle_spec key cmd with hall | ⟨hnil, -⟩
        · rw [hpush.unique hall] at hvals
          exact add_eq_right.mp hvals
        · rw [hnil] at hvals
          exact (add_eq_zero.mp hvals).1
      exact ⟨hrest.symm, rfl⟩
    | popping => exact ⟨rfl, rfl⟩
    | popped value =>
      have hnext := handle_next key cmd
      generalize cmd.handle key = prog at h hnext
      cases h.2 <;> cases hnext

end Runs

end ListCommand

section Conserved

variable {ι : Type} [DecidableEq ι] [Fintype ι]

open ListCommand

/-- Where every client has its reply or has not begun, the elements of the pushes
that were acknowledged and of the first list are those given to clients and those
in the list. -/
theorem list_conserved (key : Str) (cmds : ι → ListCommand) (s : Store) (hkey : HoldsList key s)
    (hexp : s.expirations[key]? = none) (p : Clients ι)
    (h : Runs Call.run (RemovesEmpty key) (clients key cmds s) p)
    (hq : Quiescent key cmds p) :
    contents key s + ∑ i, (cmds i).acked (p.progs i) =
      ∑ i, returned (p.progs i) + contents key p.state := by
  obtain ⟨stage, hp⟩ := inv_runs hkey hexp h
  have hsettled : ∀ i, (cmds i).acked (p.progs i) = (stage i).pushed ∧
      returned (p.progs i) = (stage i).taken := fun i => (hp.stages i).settled (hq i)
  rw [Finset.sum_congr rfl fun i _ => (hsettled i).1, Finset.sum_congr rfl fun i _ =>
    (hsettled i).2]
  exact hp.conserved

end Conserved

/-! ### Three clients -/

namespace ListCommand

def k : Str := Str.lit "k"

/-- Two pushes of one element and a pop. -/
def three : Fin 3 → ListCommand
  | 0 => .rPush [Str.utf8 "a"]
  | 1 => .lPop
  | 2 => .rPush [Str.utf8 "b"]

def turns (order : List (Fin 3)) : List (Fin 3 × Reading) := order.map fun i => (i, ⟨0, 0⟩)

/-- The second push comes when the pop has removed the key. -/
def oneByOne : List (Fin 3 × Reading) := turns [0, 0, 0, 0, 1, 1, 1, 1, 1, 1, 2, 2, 2, 2]

/-- The second push comes between the two steps of the pop. -/
def race : List (Fin 3 × Reading) := turns [0, 0, 0, 0, 1, 1, 1, 1, 2, 2, 2, 2, 1, 1]

/-- Only a call that does not keep an empty list removes the key. -/
theorem removesEmpty_of {p : Clients (Fin 3)} {i : Fin 3} (h : (match (p.progs i).next with
    | some (.data (.alter _ f)) => (f (some (.list []))).isSome
    | _ => true) = true ∨ contents k p.state = 0) : RemovesEmpty k p i := by
  intro hr
  rcases h with h | h
  · rw [hr] at h
    cases h
  · exact h

theorem acked_three {p : Clients (Fin 3)} {n m : Int64} (value : Bytes)
    (h0 : p.Replied 0 (.integer n)) (h1 : p.Replied 1 (.bulkString (some value)))
    (h2 : p.Replied 2 (.integer m)) : Quiescent k three p ∧
    ∑ i, (three i).acked (p.progs i) = {Str.utf8 "a", Str.utf8 "b"} ∧
    ∑ i, returned (p.progs i) = {value} := by
  refine ⟨fun i => ?_, ?_, ?_⟩
  · match i with
    | 0 => exact Or.inl ⟨_, h0⟩
    | 1 => exact Or.inl ⟨_, h1⟩
    | 2 => exact Or.inl ⟨_, h2⟩
  · rw [Fin.sum_univ_three, h0, h1, h2]
    rfl
  · rw [Fin.sum_univ_three, h0, h1, h2]
    rfl

end ListCommand

open ListCommand

theorem list_conserved_one_by_one : ∃ p : Clients (Fin 3),
    Runs Call.run (RemovesEmpty k) (clients k three Store.empty) p ∧ Quiescent k three p ∧
    p.Replied 1 (.bulkString (some (Str.utf8 "a"))) ∧ contents k p.state = {Str.utf8 "b"} := by
  have hpasses : Passes Call.run (RemovesEmpty k) oneByOne (clients k three Store.empty) := by
    refine ⟨?_, ?_, ?_, ?_, ?_, ?_, ?_, ?_, ?_, ?_, ?_, ?_, ?_, ?_, trivial⟩ <;>
      first | exact removesEmpty_of (Or.inl rfl) | exact removesEmpty_of (Or.inr rfl)
  have hruns := runs_schedule Call.run hpasses
  obtain ⟨hquiet, hacked, hreturned⟩ := acked_three (Str.utf8 "a")
    (p := schedule Call.run oneByOne (clients k three Store.empty)) (n := 1) (m := 1) rfl rfl rfl
  have hall := list_conserved k three Store.empty (Or.inl rfl) rfl _ hruns hquiet
  rw [hacked, hreturned] at hall
  refine ⟨_, hruns, hquiet, rfl, ?_⟩
  have hsplit : ({Str.utf8 "a", Str.utf8 "b"} : Multiset Bytes) =
      {Str.utf8 "a"} + {Str.utf8 "b"} := rfl
  rw [hsplit] at hall
  exact (add_left_cancel ((zero_add _).symm.trans hall)).symm

theorem push_into_emptied_list : ∃ p : Clients (Fin 3),
    Runs Call.run (fun _ _ => True) (clients k three Store.empty) p ∧ Quiescent k three p ∧
    ∑ i, (three i).acked (p.progs i) ≠ ∑ i, returned (p.progs i) + contents k p.state := by
  have hruns := runs_schedule Call.run (passes_all Call.run race (clients k three Store.empty))
  obtain ⟨hquiet, hacked, hreturned⟩ := acked_three (Str.utf8 "a")
    (p := schedule Call.run race (clients k three Store.empty)) (n := 1) (m := 1) rfl rfl rfl
  refine ⟨_, hruns, hquiet, fun hall => ?_⟩
  have hgone : contents k (schedule Call.run race (clients k three Store.empty)).state = 0 := rfl
  rw [hacked, hreturned, hgone] at hall
  have hcard := congrArg Multiset.card hall
  simp at hcard

end FireRedis
