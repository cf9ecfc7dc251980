import ClassLang.OperatorRule
import ClassLang.Proofs.Settles
import ClassLang.Proofs.Typing.Rules

/-!
# The table of operators is what the rules say of them

An operator is looked up by its symbol and the types of its operands in one table for all. A symbol
belongs to one binary operator, and a unary operator of the same symbol takes one operand, so the
entry found is one of the operator's own (`answers_binary`, `answers_unary`).
-/

namespace ClassLang

theorem BinOp.eq_of_symbol {op op' : BinOp} (h : op.symbol = op'.symbol) : op = op' := by
  have := ofSymbol?_symbol op
  rw [h, ofSymbol?_symbol] at this
  exact (Option.some.inj this).symm

theorem UnOp.eq_of_symbol {op op' : UnOp} (h : op.symbol = op'.symbol) : op = op' := by
  have := ofSymbol?_symbol op
  rw [h, ofSymbol?_symbol] at this
  exact (Option.some.inj this).symm

theorem BinOp.takes_of_mem_rules {op : BinOp} {s : Signature} (h : s ∈ op.rules) :
    s.name = op.symbol ∧ ∃ l r, s.params = [l, r] ∧ op.Takes l r s.ret := by
  have harith : ∀ op ∈ [add, sub, mul, div], s ∈ [(⟨op.symbol, [.int, .int], .int⟩ : Signature)] →
      s.name = op.symbol ∧ ∃ l r, s.params = [l, r] ∧ op.Takes l r s.ret := by
    intro op hop hs
    rw [List.mem_singleton.mp hs]
    exact ⟨rfl, _, _, rfl, .arithmetic hop⟩
  have hlogic : ∀ op ∈ [eq, ne, and, or],
      s ∈ [(⟨op.symbol, [.int, .int], .bool⟩ : Signature), ⟨op.symbol, [.bool, .bool], .bool⟩] →
      s.name = op.symbol ∧ ∃ l r, s.params = [l, r] ∧ op.Takes l r s.ret := by
    intro op hop hs
    rcases List.mem_cons.mp hs with rfl | hs
    · exact ⟨rfl, _, _, rfl, .ofInt hop⟩
    · rw [List.mem_singleton.mp hs]
      exact ⟨rfl, _, _, rfl, .ofBool hop⟩
  cases op with
  | add => exact harith _ (by simp) h
  | sub => exact harith _ (by simp) h
  | mul => exact harith _ (by simp) h
  | div => exact harith _ (by simp) h
  | eq => exact hlogic _ (by simp) h
  | ne => exact hlogic _ (by simp) h
  | and => exact hlogic _ (by simp) h
  | or => exact hlogic _ (by simp) h

theorem UnOp.takes_of_mem_rules {op : UnOp} {s : Signature} (h : s ∈ op.rules) :
    s.name = op.symbol ∧ ∃ x, s.params = [x] ∧ op.Takes x s.ret := by
  cases op with
  | neg =>
    rw [List.mem_singleton.mp h]
    exact ⟨rfl, _, rfl, .neg⟩
  | not =>
    rw [List.mem_singleton.mp h]
    exact ⟨rfl, _, rfl, .not⟩

/-- An entry of the table that is found belongs to an operator. -/
theorem exists_rule {key : Signature} {τ : Ty} (h : ruleType? key = some τ) :
    ∃ s : Signature, s.name = key.name ∧ s.params = key.params ∧ s.ret = τ ∧
      ((∃ op : BinOp, s ∈ op.rules) ∨ ∃ op : UnOp, s ∈ op.rules) := by
  obtain ⟨s, hs, rfl⟩ := Option.map_eq_some_iff.mp h
  have hkey : s.sameKey key = true := List.find?_some (p := (Signature.sameKey · key)) hs
  obtain ⟨hname, hparams⟩ := Signature.sameKey_iff.mp hkey
  refine ⟨s, hname, hparams, rfl, ?_⟩
  have hmem := List.mem_of_find?_eq_some hs
  rw [operatorRules, List.mem_append, List.mem_flatMap, List.mem_flatMap] at hmem
  exact hmem.imp (fun ⟨op, _, hop⟩ => ⟨op, hop⟩) fun ⟨op, _, hop⟩ => ⟨op, hop⟩

theorem ruleType?_binary_iff {op : BinOp} {l r τ : Ty} :
    ruleType? (op.key l r) = some τ ↔ op.Takes l r τ := by
  constructor
  · intro h
    obtain ⟨s, hname, hparams, rfl, ⟨op', hop⟩ | ⟨op', hop⟩⟩ := exists_rule h
    · obtain ⟨hsym, l', r', hp, htakes⟩ := BinOp.takes_of_mem_rules hop
      obtain rfl := BinOp.eq_of_symbol (hname.symm.trans hsym)
      rw [hparams] at hp
      obtain ⟨rfl, rfl⟩ : l = l' ∧ r = r' := by simpa [BinOp.key, Signature.ofKey] using hp
      exact htakes
    · obtain ⟨-, x, hp, -⟩ := UnOp.takes_of_mem_rules hop
      rw [hparams] at hp
      simp [BinOp.key, Signature.ofKey] at hp
  · intro h
    cases h with
    | arithmetic h =>
      simp only [List.mem_cons, List.not_mem_nil, or_false] at h
      rcases h with rfl | rfl | rfl | rfl <;> rfl
    | ofInt h =>
      simp only [List.mem_cons, List.not_mem_nil, or_false] at h
      rcases h with rfl | rfl | rfl | rfl <;> rfl
    | ofBool h =>
      simp only [List.mem_cons, List.not_mem_nil, or_false] at h
      rcases h with rfl | rfl | rfl | rfl <;> rfl

theorem ruleType?_unary_iff {op : UnOp} {x τ : Ty} :
    ruleType? (op.key x) = some τ ↔ op.Takes x τ := by
  constructor
  · intro h
    obtain ⟨s, hname, hparams, rfl, ⟨op', hop⟩ | ⟨op', hop⟩⟩ := exists_rule h
    · obtain ⟨-, l, r, hp, -⟩ := BinOp.takes_of_mem_rules hop
      rw [hparams] at hp
      simp [UnOp.key, Signature.ofKey] at hp
    · obtain ⟨hsym, x', hp, htakes⟩ := UnOp.takes_of_mem_rules hop
      obtain rfl := UnOp.eq_of_symbol (hname.symm.trans hsym)
      rw [hparams] at hp
      obtain rfl : x = x' := by simpa [UnOp.key, Signature.ofKey] using hp
      exact htakes
  · intro h
    cases h <;> rfl

/-- The table answers what an operator makes of its operands. -/
theorem answers_ruleType {key : Signature} :
    Answers (ruleType key) fun τ => ruleType? key = some τ := by
  unfold ruleType
  cases h : ruleType? key with
  | none => exact Answers.raise fun τ => nofun
  | some τ => exact Answers.ok fun σ => by rw [Option.some.injEq, eq_comm]

theorem answers_binary {op : BinOp} {l r : Ty} : Answers (ruleType (op.key l r)) (op.Takes l r) :=
  answers_ruleType.congr fun _ => ruleType?_binary_iff.symm

theorem answers_unary {op : UnOp} {x : Ty} : Answers (ruleType (op.key x)) (op.Takes x) :=
  answers_ruleType.congr fun _ => ruleType?_unary_iff.symm

end ClassLang
