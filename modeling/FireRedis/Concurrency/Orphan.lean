import FireRedis.Commands.Independent
import FireRedis.Concurrency.Eviction

/-!
# An EXPIRE that meets a DEL

EXPIRE finds the key in one step and inserts its deadline in a later one; DEL
removes the value and the deadline in two steps. Where the deadline is inserted
only before DEL has made its second removal, no deadline is left behind, and a
key that is created afterwards has none.
-/

namespace FireRedis
open Std Pool
open Program (Calls calls_pure calls_ask)
open Eviction (Evicts evicts_run calls_lookup calls_instantNow)

namespace Orphan

inductive Client where
  | expire
  | del
  deriving DecidableEq

/-- The commands that put a value under a missing key without a deadline. -/
inductive Creates (key : Str) : Command → Prop
  | rPush (vals : List Bytes) : Creates key (.rPush key vals)
  | sAdd (members : List Bytes) : Creates key (.sAdd key members)
  | hSet (fields : List (Str × Bytes)) : Creates key (.hSet key fields)
  | zAdd (entries : List (F64 × Bytes)) : Creates key (.zAdd key entries)
  | append (value : Bytes) : Creates key (.append key value)
  | incr : Creates key (.incr key)

variable (key : Str) (ms : UInt64)

def clients (s : Store) : Clients Client where
  state := s
  progs
    | .expire => handleExpire key ms
    | .del => handleDel [key]

/-- EXPIRE inserts its deadline only before DEL has removed the one it finds. -/
def InsertsBeforeRemoval (p : Clients Client) (client : Client) : Prop :=
  client = .expire →
    ∀ d, (p.progs .expire).next = some (.expirations (.alter key fun _ => some d)) →
      ∀ reply, ¬ p.Replied .del reply

/-- A call that EXPIRE makes. -/
def Expires (c : Call) : Prop :=
  Evicts c ∨ ∃ d, c = .expirations (.alter key fun _ => some d)

theorem expire_calls : (handleExpire key ms).Calls (Expires key) := by
  have hlookup : (Store.lookup key).Calls (Expires key) := (calls_lookup key).imp fun _ => Or.inl
  refine Calls.bind (hlookup.bind fun value => ?_) fun found => calls_pure _
  cases value with
  | none => exact calls_pure false
  | some value =>
    refine Calls.bind (Calls.bind (calls_instantNow.imp fun _ => Or.inl) fun now => ?_) fun _ =>
      calls_pure true
    have hinsert : Expires key (.expirations (.alter key fun _ => some (now + fromMillis ms))) :=
      Or.inr ⟨_, rfl⟩
    exact Calls.bind (calls_ask hinsert) fun _ => calls_pure ()

variable {key} in
theorem Expires.absent {c : Call} (hc : Expires key c) (t : Reading) {s : Store}
    (h : s.data[key]? = none) : (Call.run t c s).2.data[key]? = none := by
  rcases hc with hc | ⟨d, rfl⟩
  · by_cases hremove : c = .data (.alter key fun _ => none)
    · subst hremove
      exact ExtTreeMap.getElem?_alter_self
    · exact ((evicts_run key hc t s).2 hremove).trans h
  · exact h

/-- Where DEL is in its two removals, and what they have left. -/
inductive Deleting (s : Store) : StoreM Value → Prop
  | start : Deleting s (handleDel [key])
  | removed (k : Option Instant → StoreM Value) (hk : ∀ r, ∃ reply, k r = .done reply)
      (hdata : s.data[key]? = none) :
      Deleting s (.call (.expirations (.alter key fun _ => none)) k)
  | done (reply : Value) (hdata : s.data[key]? = none) (hexp : s.expirations[key]? = none) :
      Deleting s (.done reply)

theorem del_call : ∃ k, handleDel [key] = .call (.data (.alter key fun _ => none)) k ∧
    ∀ r, ∃ k', k r = .call (.expirations (.alter key fun _ => none)) k' ∧
      ∀ r', ∃ reply, k' r' = .done reply :=
  ⟨_, rfl, fun _ => ⟨_, rfl, fun _ => ⟨_, rfl⟩⟩⟩

structure Inv (p : Clients Client) : Prop where
  expire : (p.progs .expire).Calls (Expires key)
  del : Deleting key p.state (p.progs .del)

section Step

variable {key} {p : Clients Client} (hp : Inv key p) (t : Reading)
include hp

theorem Inv.step_del : Inv key (advance Call.run .del t p) := by
  have hexpire : ((advance Call.run .del t p).progs .expire).Calls (Expires key) := by
    rw [advance_other (by decide)]
    exact hp.expire
  refine ⟨hexpire, ?_⟩
  have hdel := hp.del
  generalize hprog : p.progs .del = prog at hdel
  cases hdel with
  | start =>
    obtain ⟨k, hk, hnext⟩ := del_call key
    have hcall := hprog.trans hk
    obtain ⟨k', hk', hreply⟩ := hnext (Call.run t (.data (.alter key fun _ => none)) p.state).1
    rw [advance_self hcall, hk', advance_state hcall]
    exact .removed k' hreply ExtTreeMap.getElem?_alter_self
  | removed k hk hdata =>
    obtain ⟨reply, hreply⟩ := hk (Call.run t (.expirations (.alter key fun _ => none)) p.state).1
    rw [advance_self hprog, hreply, advance_state hprog]
    exact .done reply hdata ExtTreeMap.getElem?_alter_self
  | done reply hdata hexp =>
    rw [advance_ended (by rw [hprog]; rfl), hprog]
    exact .done reply hdata hexp

theorem Inv.step_expire (hguard : InsertsBeforeRemoval key p .expire) :
    Inv key (advance Call.run .expire t p) := by
  have hsame : (advance Call.run .expire t p).progs .del = p.progs .del :=
    advance_other (by decide) t
  cases hprog : p.progs .expire with
  | done a =>
    rw [advance_ended (by rw [hprog]; rfl)]
    exact hp
  | fault e =>
    rw [advance_ended (by rw [hprog]; rfl)]
    exact hp
  | call c k =>
    have hcalls := hp.expire
    rw [hprog] at hcalls
    obtain ⟨hc, hk⟩ := hcalls
    have hdata : p.state.data[key]? = none → (Call.run t c p.state).2.data[key]? = none :=
      hc.absent t
    refine ⟨by rw [advance_self hprog]; exact hk _, ?_⟩
    rw [hsame, advance_state hprog]
    have hdel := hp.del
    generalize hdelprog : p.progs .del = prog at hdel
    cases hdel with
    | start => exact .start
    | removed k hk hnone => exact .removed k hk (hdata hnone)
    | done reply hnone hexp =>
      refine .done reply (hdata hnone) ?_
      rcases hc with hc | ⟨d, rfl⟩
      · exact (evicts_run key hc t p.state).1 hexp
      · exact absurd hdelprog (hguard rfl d (by rw [hprog]; rfl) reply)

end Step

variable {key ms} in
theorem inv_runs {s : Store} {p : Clients Client}
    (h : Runs Call.run (InsertsBeforeRemoval key) (clients key ms s) p) : Inv key p := by
  refine runs_induction ⟨expire_calls key ms, .start⟩ (fun p client t hp hguard => ?_) h
  cases client with
  | expire => exact hp.step_expire t hguard
  | del => exact hp.step_del t

theorem Creates.permanent {key : Str} {cmd : Command} (h : Creates key cmd) :
    cmd.onKeys = true ∧ cmd.setsDeadline = false := by
  cases h <;> exact ⟨rfl, rfl⟩

end Orphan

/-- A key that is created after an EXPIRE and a DEL of it have both ended has no deadline. -/
theorem new_key_without_deadline (F : FloatText) (ord : IterOrder) (info : Bytes) (key : Str)
    (ms : UInt64) (s : Store) (p : Clients Orphan.Client)
    (h : Runs Call.run (Orphan.InsertsBeforeRemoval key) (Orphan.clients key ms s) p)
    (hended : ∀ client, ∃ reply, p.Replied client reply) (cmd : Command)
    (hcreates : Orphan.Creates key cmd) (now : Reading) :
    p.state.data[key]? = none ∧
      ((cmd.execute F ord info).runAt now p.state).2.expirations[key]? = none := by
  obtain ⟨reply, hreply⟩ := hended .del
  have hdel := (Orphan.inv_runs h).del
  rw [hreply] at hdel
  cases hdel with
  | done _ hdata hexp =>
    obtain ⟨hkeys, hd⟩ := hcreates.permanent
    exact ⟨hdata, execute_permanent F ord info cmd hkeys hd now hexp⟩

/-! ### One key -/

namespace Orphan

def k : Str := Str.lit "k"

def held : Store := Store.empty.put k (some (.string (Str.utf8 "old"))) none

def turns (order : List Client) : List (Client × Reading) :=
  order.map fun client => (client, ⟨0, 0⟩)

/-- EXPIRE inserts its deadline between the two removals of DEL. -/
def between : List (Client × Reading) := turns [.expire, .expire, .del, .expire, .expire, .del]

/-- EXPIRE finds the key, DEL removes it, and EXPIRE inserts its deadline. -/
def race : List (Client × Reading) := turns [.expire, .expire, .del, .del, .expire, .expire]

/-- The store after the list is pushed that creates the key anew. -/
def pushed (p : Clients Client) : Store :=
  (((Command.rPush k [Str.utf8 "x"]).execute noFloats .sorted []).runAt ⟨0, 0⟩ p.state).2

end Orphan

open Orphan

theorem new_key_without_deadline_between : ∃ p : Clients Client,
    Runs Call.run (InsertsBeforeRemoval Orphan.k) (clients Orphan.k 1000 held) p ∧
    (∃ reply, p.Replied .expire reply) ∧ (∃ reply, p.Replied .del reply) ∧
    (pushed p).expirations[Orphan.k]? = none := by
  have hpasses : Passes Call.run (InsertsBeforeRemoval Orphan.k) between
      (clients Orphan.k 1000 held) := by
    refine ⟨?_, ?_, ?_, ?_, ?_, ?_, trivial⟩ <;> intro hclient d hnext reply hreply <;>
      first | cases hclient; done | cases hreply
  have hruns := runs_schedule Call.run hpasses
  have hended : ∀ client, ∃ reply,
      (schedule Call.run between (clients Orphan.k 1000 held)).Replied client reply := fun client =>
    match client with
    | .expire => ⟨_, rfl⟩
    | .del => ⟨_, rfl⟩
  have hnone := (new_key_without_deadline noFloats .sorted [] _ _ _ _ hruns hended
    (.rPush Orphan.k [Str.utf8 "x"]) (.rPush _) ⟨0, 0⟩).2
  exact ⟨_, hruns, hended .expire, hended .del, hnone⟩

theorem deadline_inherited : ∃ p : Clients Client,
    Runs Call.run (fun _ _ => True) (clients Orphan.k 1000 held) p ∧
    (∃ reply, p.Replied .expire reply) ∧ (∃ reply, p.Replied .del reply) ∧
    p.state.data[Orphan.k]? = none ∧
    (pushed p).live 0 Orphan.k = some ⟨.list [Str.utf8 "x"], some (0 + fromMillis 1000)⟩ := by
  have hruns := runs_schedule Call.run (passes_all Call.run race (clients Orphan.k 1000 held))
  have hlive : (pushed (schedule Call.run race (clients Orphan.k 1000 held))).live 0 Orphan.k =
      some ⟨.list [Str.utf8 "x"], some (0 + fromMillis 1000)⟩ := by
    refine liveOf_eq_some.mpr ⟨rfl, rfl, fun d hd => ?_⟩
    rw [← Option.some.inj hd]
    decide
  exact ⟨_, hruns, ⟨_, rfl⟩, ⟨_, rfl⟩, rfl, hlive⟩

end FireRedis
