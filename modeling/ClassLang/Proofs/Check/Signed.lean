import ClassLang.Check.Program
import ClassLang.Proofs.Outcome

/-!
# The first pass records the signatures

The bodies of a class are checked under the signatures that the first pass has recorded in the tree.
Where that pass succeeds it has recorded one for every method and constructor, the one that its own
declaration gives (`Member.eq_of_declareList`). So the second pass never comes to a member without a
signature, and checks every body under its own (`Routine.check_filled`).
-/

namespace ClassLang

open Outcome

variable {env : Env} {s : Signature} {cls : String}

/-- The member once it has been declared. -/
def Member.declared (cls : String) : Member → Member
  | .field sp ty x => .field sp ty x
  | .method ret f r => .method ret f { r with signature := .filled ⟨f, r.paramTypes, ret⟩ }
  | .constructor r =>
    .constructor { r with signature := .filled (.ofConstructor cls r.paramTypes) }

/-- The signature of the member is recorded in it. -/
def Member.Signed (cls : String) (m : Member) : Prop := m.declared cls = m

theorem Member.signed_declared (cls : String) (m : Member) : (m.declared cls).Signed cls := by
  cases m <;> rfl

theorem Routine.of_declare {r : Routine} {mayReplace : Bool} {u : Unit} {b : Routine × Env}
    (h : r.declare cls s mayReplace env = .ok u b) :
    b.1 = { r with signature := .filled s } ∧ ∃ isNew, Env.addMethod s env = .ok isNew b.2 := by
  unfold Routine.declare at h
  obtain ⟨isNew, env₁, hadd, h⟩ := exists_of_andThen h
  split at h
  · cases h
    exact ⟨rfl, isNew, hadd⟩
  · cases h

/-- Declaring a member records its signature. -/
theorem Member.eq_of_declare {m : Member} {replaced replaced' : Bool} {b : Member × Env}
    (h : m.declare cls replaced env = .ok replaced' b) : b.1 = m.declared cls := by
  cases m with
  | field sp ty x =>
    obtain ⟨_, env₁, -, h⟩ := exists_of_andThen h
    cases h
    rfl
  | method ret f r =>
    obtain ⟨_, -, h⟩ := of_ask (of_locate h)
    obtain ⟨_, -, h⟩ := of_ask h
    obtain ⟨_, b', hr, h⟩ := exists_of_andThen h
    cases h
    show Member.method ret f b'.1 = _
    rw [(Routine.of_declare hr).1]
    rfl
  | constructor r =>
    obtain ⟨_, -, h⟩ := of_ask (of_locate h)
    obtain ⟨_, b', hr, h⟩ := exists_of_andThen h
    cases h
    show Member.constructor b'.1 = _
    rw [(Routine.of_declare hr).1]
    rfl

/-- **After the first pass every member has its signature recorded.** -/
theorem Member.eq_of_declareList : ∀ {ms : List Member} {replaced : Bool} {env : Env} {u : Unit}
    {b : List Member × Env}, Member.declareList cls replaced ms env = .ok u b →
    b.1 = ms.map (Member.declared cls)
  | [], _, _, _, _, h => by
    cases h
    rfl
  | m :: ms, _, _, _, _, h => by
    rw [Member.declareList] at h
    obtain ⟨replaced', ⟨m', env₁⟩, hm, h⟩ := exists_of_andThen h
    obtain ⟨⟨ms', env₂⟩, hms, rfl⟩ := exists_of_wrap h
    rw [List.map_cons, ← Member.eq_of_declare hm, ← Member.eq_of_declareList hms]

theorem Member.signed_of_declareList {ms : List Member} {replaced : Bool} {u : Unit}
    {b : List Member × Env} (h : Member.declareList cls replaced ms env = .ok u b) :
    ∀ m ∈ b.1, m.Signed cls := by
  rw [Member.eq_of_declareList h]
  exact List.forall_mem_map.mpr fun m _ => m.signed_declared cls

/-- A body with a signature recorded is checked under it. -/
theorem Routine.check_filled {r : Routine} (h : r.signature = .filled s) (name : String)
    (env : Env) : r.check name env = r.checkBody s env := by
  unfold Routine.check Routine.declaredSignature
  simp only [h, ofExcept_ok, andThen_ok]

end ClassLang
