import ClassLang.Proofs.Lineage
import ClassLang.Proofs.Table.Operations
import ClassLang.Tree.Program

/-!
# The order of declaration

At every point of a check the classes of the table were declared one after the other, each with an
earlier class or itself for its parent (`ClassTable.Ordered`). So a walk that leaves a class for
another one goes down in the order of declaration, and a walk has an end unless it comes to a class
that is its own parent.

`ClassTable.Walk` and `ClassTable.Search` say what a walk and a search up from a class are when
nothing limits them. Where no class is its own parent a walk runs through the lineage
(`Ordered.walk_lineage`), so the limit of `lineage` cuts nothing off, and the searches in a lineage
are searches without a limit (`Walk.search_iff`).
-/

namespace ClassLang

namespace ClassTable

variable {p : Program} {t t' : ClassTable} {op : Op} {l : List ClassInfo} {c d : ClassInfo}
  {q cls name : String}

/-! ### Tables whose classes were declared in their order -/

/-- What a check of `p` sees to before an operation: a parent is set for the open class only, to the
one its declaration names, and only if that one is declared. -/
def Op.Allowed (p : Program) (t : ClassTable) : Op → Prop
  | setParent q => ∃ c ∈ p.classes, c.parent = some q ∧ t.current = some c.name ∧ t.contains q = true
  | _ => True

/-- The place of a class in the order of declaration. -/
def index (t : ClassTable) (name : String) : ℕ := t.order.idxOf name

/-- The parent of a class is declared before it, or is the class itself. -/
structure Ordered (t : ClassTable) : Prop where
  sound : t.Sound
  parent : ∀ cls c, t.find? cls = some c → ∀ q, c.parent = some q →
    q ∈ t.order ∧ (t.index q < t.index cls ∨ q = cls)

theorem ordered_empty : Ordered .empty := ⟨sound_empty, fun _ _ h => (nomatch h)⟩

/-- The order only grows, at its end. -/
theorem Effect.order_prefix (heff : t.Effect op t') : t.order <+: t'.order := by
  cases heff with
  | enter => exact List.prefix_append ..
  | change => exact List.prefix_refl _
  | leave => exact List.prefix_refl _

theorem Effect.index_eq (heff : t.Effect op t') (h : name ∈ t.order) :
    t'.index name = t.index name := by
  obtain ⟨l, hl⟩ := heff.order_prefix
  rw [index, ← hl, List.idxOf_append_of_mem h, index]

/-- Every class stands before the last, or is the last. -/
theorem Sound.index_lt_of_open (h : t.Sound) (hopen : t.current = some cls)
    (hq : t.contains q = true) : t.index q < t.index cls ∨ q = cls := by
  have hlast := h.last cls hopen
  have hmem := (h.inStep.listed q).mpr hq
  obtain ⟨l, hl⟩ := List.getLast?_eq_some_iff.mp hlast
  have hnodup := h.inStep.nodup
  rw [hl, ← List.concat_eq_append, List.nodup_concat] at hnodup
  rw [hl, List.mem_append, List.mem_singleton] at hmem
  rcases hmem with hmem | rfl
  · left
    have hlt := List.idxOf_lt_length_of_mem hmem
    rw [index, index, hl, List.idxOf_append_of_mem hmem, List.idxOf_append_of_notMem hnodup.1]
    omega
  · exact .inr rfl

/-- **Every operation that a check makes keeps the order of declaration.** -/
theorem Effect.ordered (hop : op.Allowed p t) (heff : t.Effect op t') (h : t.Ordered) :
    t'.Ordered where
  sound := heff.sound h.sound
  parent := by
    refine heff.forall_records (fun name _ q hq => (nomatch hq)) (fun f cls c hf hopen hc hold => ?_)
      fun cls c hc q hq => ?_
    · cases op with
      | enter | leave => cases hf
      | addField | addMethod =>
        cases hf
        exact hold
      | setParent r =>
        cases hf
        intro q hq
        cases hq
        obtain ⟨-, -, -, -, hdeclared⟩ := hop
        have hq := (h.sound.inStep.listed r).mpr hdeclared
        refine ⟨heff.order_prefix.subset hq, ?_⟩
        rw [heff.index_eq hq, heff.index_eq (h.sound.inStep.mem_order_of_find? hc)]
        exact h.sound.index_lt_of_open hopen hdeclared
    · obtain ⟨hmem, hbefore⟩ := h.parent cls c hc q hq
      refine ⟨heff.order_prefix.subset hmem, ?_⟩
      rwa [heff.index_eq hmem, heff.index_eq (h.sound.inStep.mem_order_of_find? hc)]

/-- No class is its own parent. -/
def NoneSelf (t : ClassTable) : Prop := ∀ cls c, t.find? cls = some c → c.parent ≠ some cls

theorem InStep.noneSelf_iff (h : t.InStep) :
    t.NoneSelf ↔ ∀ c ∈ t.classes, c.parent ≠ some c.name := by
  constructor
  · exact fun hnone c hc => hnone c.name c (h.find?_eq_some_iff.mpr ⟨hc, rfl⟩)
  · intro hnone cls c hc
    obtain ⟨hmem, rfl⟩ := h.find?_eq_some_iff.mp hc
    exact hnone c hmem

theorem Effect.noneSelf (hp : ∀ c ∈ p.classes, c.parent ≠ some c.name) (hop : op.Allowed p t)
    (heff : t.Effect op t') (h : t.NoneSelf) : t'.NoneSelf := by
  refine heff.forall_records (fun name _ hq => (nomatch hq)) (fun f cls c hf hopen _ hold => ?_) h
  cases op with
  | enter | leave => cases hf
  | addField | addMethod =>
    cases hf
    exact hold
  | setParent r =>
    cases hf
    obtain ⟨d, hd, hparent, hopen', -⟩ := hop
    obtain rfl : cls = d.name := Option.some.inj (hopen.symm.trans hopen')
    exact hparent ▸ hp d hd

/-! ### From a class to its parent -/

namespace Ordered

theorem find?_of_mem (h : t.Ordered) (hc : c ∈ t.classes) : t.find? c.name = some c :=
  h.sound.inStep.find?_eq_some_iff.mpr ⟨hc, rfl⟩

/-- **The parent of a class is in the table, and is declared before it or is the class itself.** -/
theorem exists_parent (h : t.Ordered) (hc : c ∈ t.classes) (hq : c.parent = some q) :
    ∃ d ∈ t.classes, t.parent? c = some d ∧ d.name = q ∧
      (t.index d.name < t.index c.name ∨ d = c) := by
  have hfind := h.find?_of_mem hc
  obtain ⟨hmem, hbefore⟩ := h.parent c.name c hfind q hq
  obtain ⟨d, hd, rfl⟩ := h.sound.inStep.find?_of_mem_order hmem
  refine ⟨d, (h.sound.inStep.find?_eq_some_iff.mp hd).1, ?_, rfl, hbefore.imp_right fun hname => ?_⟩
  · rw [parent?, hq, Option.bind_some, hd]
  · rw [hname, hfind] at hd
    exact (Option.some.inj hd).symm

theorem parent?_cases (h : t.Ordered) (hc : c ∈ t.classes) (hd : t.parent? c = some d) :
    d ∈ t.classes ∧ c.parent = some d.name ∧ (t.index d.name < t.index c.name ∨ d = c) := by
  obtain ⟨q, hq, -⟩ := Option.bind_eq_some_iff.mp hd
  obtain ⟨e, he, hce, rfl, hbefore⟩ := h.exists_parent hc hq
  obtain rfl := Option.some.inj (hd.symm.trans hce)
  exact ⟨he, hq, hbefore⟩

end Ordered

/-! ### Walks and searches without a limit -/

/-- The classes on the whole way up from `start`. -/
inductive Walk (t : ClassTable) : Option ClassInfo → List ClassInfo → Prop
  | ended : Walk t none []
  | step {c : ClassInfo} {l : List ClassInfo} (h : Walk t (t.parent? c) l) : Walk t (some c) (c :: l)

/-- A search up from `start`, `depth` steps from where it began. It ends at the first class in which
`look` finds something, or where the way up ends. -/
inductive Search {α : Type} (t : ClassTable) (look : ClassInfo → Option α) :
    ℕ → Option ClassInfo → Option (Located α) → Prop
  | ended {depth : ℕ} : Search t look depth none none
  | found {depth : ℕ} {c : ClassInfo} {a : α} (h : look c = some a) :
    Search t look depth (some c) (some ⟨depth, c.name, a⟩)
  | next {depth : ℕ} {c : ClassInfo} {r : Option (Located α)} (h : look c = none)
    (hr : Search t look (depth + 1) (t.parent? c) r) : Search t look depth (some c) r

namespace Walk

variable {start : Option ClassInfo} {l' : List ClassInfo}

theorem unique (h : t.Walk start l) (h' : t.Walk start l') : l = l' := by
  induction h generalizing l' with
  | ended =>
    cases h'
    rfl
  | step _ ih =>
    cases h' with
    | step h' => rw [ih h']

theorem tail (h : t.Walk start l) : t.Walk (t.up start) l.tail := by
  cases h with
  | ended => exact .ended
  | step h => exact h

/-- A limit beyond the end of the walk cuts nothing off. -/
theorem climb_eq (h : t.Walk start l) {n : ℕ} (hn : l.length ≤ n) : t.climb n start = l := by
  induction h generalizing n with
  | ended => exact climb_none t n
  | step _ ih =>
    rw [List.length_cons] at hn
    obtain ⟨m, rfl⟩ : ∃ m, n = m + 1 := ⟨n - 1, by omega⟩
    rw [climb_succ, ih (by omega)]

/-- **A search along a walk that ends has an end**, and one answer. -/
theorem search_iff {α : Type} {look : ClassInfo → Option α} (h : t.Walk start l) {depth : ℕ}
    {r : Option (Located α)} : t.Search look depth start r ↔
      r = (l.zipIdx depth).findSome? fun (c, depth) =>
        (look c).map fun what => ⟨depth, c.name, what⟩ := by
  induction h generalizing depth with
  | ended =>
    constructor
    · rintro ⟨⟩
      rfl
    · rintro rfl
      exact .ended
  | @step c l _ ih =>
    rw [List.zipIdx_cons, List.findSome?_cons]
    cases hc : look c with
    | none =>
      simp only [hc, Option.map_none]
      constructor
      · rintro (_ | hfound | ⟨-, hr⟩)
        · rw [hc] at hfound
          cases hfound
        · exact ih.mp hr
      · exact fun hr => .next hc (ih.mpr hr)
    | some a =>
      simp only [hc, Option.map_some]
      constructor
      · rintro (_ | hfound | ⟨hnone, -⟩)
        · rw [hc] at hfound
          cases hfound
          rfl
        · rw [hc] at hnone
          cases hnone
      · rintro rfl
        exact .found hc

end Walk

namespace Ordered

/-- The way up from a class goes down in the order of declaration, so it ends. -/
theorem exists_walk (h : t.Ordered) (hself : t.NoneSelf) : ∀ {n : ℕ} {c : ClassInfo},
    c ∈ t.classes → t.index c.name < n → ∃ l, t.Walk (some c) l ∧ l.length ≤ n ∧
      (∀ d ∈ l, t.index d.name < n) ∧ l.Pairwise fun a b => t.index b.name < t.index a.name
  | 0, _, _, hn => absurd hn (Nat.not_lt_zero _)
  | n + 1, c, hc, hn => by
    cases hd : t.parent? c with
    | none =>
      refine ⟨[c], .step (hd ▸ .ended), ?_, List.forall_mem_singleton.mpr hn, List.pairwise_singleton ..⟩
      rw [List.length_singleton]
      omega
    | some d =>
      obtain ⟨hmem, hparent, hbefore | rfl⟩ := h.parent?_cases hc hd
      · obtain ⟨l, hl, hlen, hall, hdesc⟩ :=
          exists_walk h hself (n := t.index c.name) hmem hbefore
        refine ⟨c :: l, .step (hd ▸ hl), ?_, ?_, ?_⟩
        · rw [List.length_cons]
          omega
        · refine List.forall_mem_cons.mpr ⟨hn, fun e he => ?_⟩
          have := hall e he
          omega
        · exact List.pairwise_cons.mpr ⟨hall, hdesc⟩
      · exact absurd hparent (hself d.name d (h.find?_of_mem hc))

/-- **The lineage of a class is the whole way up**, and goes down in the order of declaration. -/
theorem walk_lineage (h : t.Ordered) (hself : t.NoneSelf) (cls : String) :
    t.Walk (t.find? cls) (t.lineage cls) ∧
      (t.lineage cls).Pairwise fun a b => t.index b.name < t.index a.name := by
  rw [lineage, ancestors]
  cases hc : t.find? cls with
  | none =>
    rw [climb_none]
    exact ⟨.ended, .nil⟩
  | some c =>
    have hstep := h.sound.inStep
    obtain ⟨hmem, rfl⟩ := hstep.find?_eq_some_iff.mp hc
    have hindex : t.index c.name < t.size := by
      rw [hstep.size]
      exact List.idxOf_lt_length_of_mem (hstep.mem_order_of_find? hc)
    obtain ⟨l, hl, hlen, -, hdesc⟩ := h.exists_walk hself hmem hindex
    rw [hl.climb_eq hlen]
    exact ⟨hl, hdesc⟩

end Ordered

end ClassTable

end ClassLang
