import ClassLang.Proofs.Nearest

/-!
# What a class has from its ancestors

Where the way up from a class ends, it is a finite chain, and a search along it comes to the first
class of the chain that has what is looked for (`ClassTable.Walk.nearest?_eq_some_iff`), or passes
them all (`ClassTable.Walk.nearest?_eq_none_iff`). Fields are looked for by name and methods by name
and parameters, each in a table of its own, so that a field hides no method and a method no field.
Only where a name is no field of any class in the chain does it matter whether it is the name of a
method: the fault that is then raised says so (`ClassTable.inherited_from_nearest`).
-/

namespace ClassLang

namespace MethodSet

variable {m : MethodSet} {s u : Signature}

/-- A set has one method of a name with given parameters, and finds it whatever it returns. -/
theorem find?_eq_some_iff :
    m.find? s = some u ↔ u ∈ m.toList ∧ u.name = s.name ∧ u.params = s.params := by
  constructor
  · intro hfind
    have hkey : u.sameKey s = true :=
      List.find?_some (p := fun v : Signature => v.sameKey s) hfind
    exact ⟨List.mem_of_find?_eq_some hfind, Signature.sameKey_iff.mp hkey⟩
  · rintro ⟨hmem, hname, hparams⟩
    have hkey : (fun v : Signature => v.sameKey s) = fun v => v.sameKey u := by
      funext v
      rw [Signature.sameKey, Signature.sameKey, hname, hparams]
    rw [find?, hkey]
    exact find?_of_mem hmem

theorem find?_eq_none_iff :
    m.find? s = none ↔ ∀ u ∈ m.toList, ¬ (u.name = s.name ∧ u.params = s.params) := by
  simp only [find?, List.find?_eq_none, Signature.sameKey_iff]

theorem hasName_iff {name : String} : m.hasName name = true ↔ ∃ u ∈ m.toList, u.name = name := by
  simp [hasName, overloads]

end MethodSet

namespace ClassTable

variable {t : ClassTable} {cls : String} {chain : List ClassInfo} {α : Type}
  {look : ClassInfo → Option α}

namespace Walk

/-- A walk with a limit is the beginning of the whole. -/
theorem climb_eq_take {start : Option ClassInfo} (h : t.Walk start chain) (n : ℕ) :
    t.climb n start = chain.take n := by
  induction h generalizing n with
  | ended => rw [climb_none, List.take_nil]
  | step _ ih =>
    cases n with
    | zero => rfl
    | succ n => rw [climb_succ, ih, List.take_succ_cons]

/-- The limit of a search takes nothing away from the chain. -/
theorem nearest?_eq (h : t.Walk (t.find? cls) chain) :
    t.nearest? cls look = chain.zipIdx.findSome? fun (i, depth) =>
      (look i).map fun what => (⟨depth, i.name, what⟩ : Located α) := by
  have hall : t.ancestors cls (max t.size chain.length) = chain := h.climb_eq (le_max_right ..)
  rw [nearest?_eq_ancestors (le_max_left t.size chain.length), hall]

/-- **A search comes to the first class of the chain that has something.** -/
theorem nearest?_eq_some_iff (h : t.Walk (t.find? cls) chain) {k : ℕ} {owner : String} {a : α} :
    t.nearest? cls look = some ⟨k, owner, a⟩ ↔ ∃ i, chain[k]? = some i ∧ i.name = owner ∧
      look i = some a ∧ ∀ j ∈ chain.take k, look j = none := by
  have htake : ∀ k, (∀ k' < k, ∀ j, chain[k']? = some j → look j = none) ↔
      ∀ j ∈ chain.take k, look j = none := by
    intro k
    constructor
    · intro hbefore j hj
      obtain ⟨k', hk'⟩ := List.getElem?_of_mem hj
      rw [List.getElem?_take] at hk'
      by_cases hlt : k' < k
      · exact hbefore k' hlt j (by rwa [if_pos hlt] at hk')
      · rw [if_neg hlt] at hk'
        contradiction
    · intro hbefore k' hlt j hj
      have htaken : (chain.take k)[k']? = some j := by rw [List.getElem?_take, if_pos hlt, hj]
      exact hbefore j (List.mem_of_getElem? htaken)
  rw [h.nearest?_eq, findSome?_zipIdx_iff]
  constructor
  · rintro ⟨k', i, a', hi, ha, heq, hbefore⟩
    rw [Nat.zero_add] at heq
    obtain ⟨rfl, rfl, rfl⟩ := Located.mk.inj heq
    exact ⟨i, hi, rfl, ha, (htake k).mp hbefore⟩
  · rintro ⟨i, hi, rfl, ha, hbefore⟩
    exact ⟨k, i, a, hi, ha, by rw [Nat.zero_add], (htake k).mpr hbefore⟩

theorem nearest?_eq_none_iff (h : t.Walk (t.find? cls) chain) :
    t.nearest? cls look = none ↔ ∀ i ∈ chain, look i = none := by
  rw [h.nearest?_eq, List.findSome?_eq_none_iff]
  constructor
  · intro hnone i hi
    obtain ⟨k, hk⟩ := List.getElem?_of_mem hi
    have := hnone (i, k) (List.mem_zipIdx_iff_getElem?.mpr hk)
    simpa using this
  · rintro hnone ⟨i, k⟩ hik
    have hi : i ∈ chain := List.mem_of_getElem? (List.mem_zipIdx_iff_getElem?.mp hik)
    simp [hnone i hi]

/-- The classes of the chain are those of the lineage. -/
theorem mem_lineage_iff (h : t.Walk (t.find? cls) chain) {i : ClassInfo} :
    i ∈ t.lineage cls ↔ i ∈ chain := by
  constructor
  · intro hi
    rw [lineage, ancestors, h.climb_eq_take] at hi
    exact List.mem_of_mem_take hi
  · intro hi
    have hall : t.ancestors cls chain.length = chain := h.climb_eq le_rfl
    exact mem_lineage_of_mem_ancestors (hall ▸ hi)

theorem hasMethodNamed_iff (h : t.Walk (t.find? cls) chain) {name : String} :
    t.hasMethodNamed cls name = true ↔ ∃ i ∈ chain, ∃ m ∈ i.methods.toList, m.name = name := by
  simp only [hasMethodNamed, List.any_eq_true, h.mem_lineage_iff, MethodSet.hasName_iff]

end Walk

/-- **What a class has, it has from the nearest class that declares it**, where the way up from it is
the chain of its ancestors. A field is found at the depth, with the owner and of the type of the first
class that has the name. A method is found in the first class that has the name with these
parameters, with the return type that is declared there. The type of a field is the one found; if no
class of the chain has such a field, the fault is that the name is no variable if it is the name of a
method, and otherwise that it is not declared. -/
theorem inherited_from_nearest (hchain : t.Walk (t.find? cls) chain) :
    (∀ n, t.ancestors cls n = chain.take n) ∧
    (∀ x k owner e, t.findMember? cls x = some ⟨k, owner, e⟩ ↔
      ∃ i, chain[k]? = some i ∧ i.name = owner ∧ i.members.get? x = some e ∧
        ∀ j ∈ chain.take k, j.members.get? x = none) ∧
    (∀ s k owner m, t.findMethod? cls s = some ⟨k, owner, m⟩ ↔
      ∃ i, chain[k]? = some i ∧ i.name = owner ∧
        (m ∈ i.methods.toList ∧ m.name = s.name ∧ m.params = s.params) ∧
        ∀ j ∈ chain.take k, ∀ u ∈ j.methods.toList, ¬ (u.name = s.name ∧ u.params = s.params)) ∧
    (∀ x k i e, chain[k]? = some i → i.members.get? x = some e →
      (∀ j ∈ chain.take k, j.members.get? x = none) → t.fieldTy cls x =
        match e with
        | .value ty => .ok (ty, i.name)
        | .method _ => (Fault.notAVariable x).raise) ∧
    ∀ x, (∀ i ∈ chain, i.members.get? x = none) →
      ((∃ i ∈ chain, ∃ m ∈ i.methods.toList, m.name = x) →
        t.fieldTy cls x = (Fault.notAVariable x).raise) ∧
      ((¬ ∃ i ∈ chain, ∃ m ∈ i.methods.toList, m.name = x) →
        t.fieldTy cls x = (Fault.undeclaredMember cls x).raise) := by
  refine ⟨fun n => hchain.climb_eq_take n, fun x k owner e => hchain.nearest?_eq_some_iff,
    fun s k owner m => ?_, fun x k i e hi he hbefore => ?_, fun x hnone => ?_⟩
  · rw [findMethod?, hchain.nearest?_eq_some_iff]
    refine exists_congr fun i => and_congr_right fun _ => and_congr_right fun _ => ?_
    rw [MethodSet.find?_eq_some_iff]
    simp only [MethodSet.find?_eq_none_iff]
  · have hfound : t.findMember? cls x = some ⟨k, i.name, e⟩ :=
      hchain.nearest?_eq_some_iff.mpr ⟨i, hi, rfl, he, hbefore⟩
    unfold fieldTy
    rw [hfound]
    cases e <;> rfl
  · have hmissing : t.findMember? cls x = none := hchain.nearest?_eq_none_iff.mpr hnone
    unfold fieldTy
    rw [hmissing, ← hchain.hasMethodNamed_iff]
    exact ⟨fun hnamed => if_pos hnamed, fun hnamed => if_neg hnamed⟩

/-- Three classes, each the parent of the next. The second has a field `x` like the first; the third
has a method of that name. -/
def veined : ClassTable := run .empty [
  .enter "A", .addField "x" .int, .addField "y" .int, .addMethod ⟨"f", [.int], .bool⟩, .leave,
  .enter "B", .setParent "A", .addField "x" .bool, .leave,
  .enter "C", .setParent "B", .addMethod ⟨"x", [], .void⟩, .leave]

/-- Seen from `C`, the field `x` is that of `B`, and the method `f` that of `A`, with its own return
type. `f` is no variable, and `z` nothing at all. -/
theorem veined_inherited :
    veined.findMember? "C" "x" = some ⟨1, "B", .value .bool⟩ ∧
    veined.fieldTy "C" "x" = .ok (.bool, "B") ∧
    veined.findMethod? "C" (.ofKey "f" [.int]) = some ⟨2, "A", ⟨"f", [.int], .bool⟩⟩ ∧
    veined.fieldTy "C" "f" = (Fault.notAVariable "f").raise ∧
    veined.fieldTy "C" "z" = (Fault.undeclaredMember "C" "z").raise := by
  have hchain : veined.Walk (veined.find? "C") (veined.climb 4 (veined.find? "C")) :=
    walk_climb (by decide +kernel)
  obtain ⟨-, hmember, hmethod, hfield, hmissing⟩ := inherited_from_nearest hchain
  let a := veined.classes.get ⟨0, by decide +kernel⟩
  let b := veined.classes.get ⟨1, by decide +kernel⟩
  have hb : (veined.climb 4 (veined.find? "C"))[1]? = some b := by decide +kernel
  have hx : b.members.get? "x" = some (.value .bool) := by decide +kernel
  have hnearer : ∀ j ∈ (veined.climb 4 (veined.find? "C")).take 1, j.members.get? "x" = none := by
    decide +kernel
  refine ⟨?_, ?_, ?_, ?_, ?_⟩
  · exact (hmember "x" 1 "B" _).mpr ⟨b, hb, by decide +kernel, hx, hnearer⟩
  · have hname : b.name = "B" := by decide +kernel
    rw [hfield "x" 1 b _ hb hx hnearer, hname]
  · exact (hmethod _ 2 "A" _).mpr ⟨a, by decide +kernel, by decide +kernel, by decide +kernel,
      by decide +kernel⟩
  · exact (hmissing "f" (by decide +kernel)).1 (by decide +kernel)
  · exact (hmissing "z" (by decide +kernel)).2 (by decide +kernel)

end ClassTable

end ClassLang
