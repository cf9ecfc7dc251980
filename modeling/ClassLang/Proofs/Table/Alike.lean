import ClassLang.Proofs.Check.Points
import ClassLang.Proofs.Check.Program
import ClassLang.Proofs.Typing.Agree

/-!
# Tables of classes that agree

Two tables are alike if they record classes that agree, and a class of both has one record. From a
class of both every search comes to the same class at the same depth (`Alike.nearest?_eq`), although
the lineages may be cut off at different lengths, and a call with arguments of both is resolved
alike.

The analyses of programs that agree give tables that are alike (`Program.alike_of_analyze`). That
the records are equal, and do not only say the same, is because the members of a class are kept in
the order in which they were declared (`ClassInfo.Tidy`).
-/

namespace ClassLang

variable {p : Program} {t t' : ClassTable} {cs ds : List Outline} {i j : ClassInfo} {c : Outline}
  {cls name : String} {args : List Ty}

/-! ### Members in their order -/

theorem NameMap.keys_insertEntry {α : Type} (name : String) (a : α) : ∀ l : List (String × α),
    (insertEntry name a l).map Prod.fst =
      if (l.lookup name).isSome then l.map Prod.fst else l.map Prod.fst ++ [name]
  | [] => rfl
  | (n, b) :: l => by
    have ih := keys_insertEntry name a l
    rw [insertEntry, List.lookup_cons]
    by_cases hn : n = name
    · simp [hn]
    · have hb : (name == n) = false := beq_eq_false_iff_ne.mpr (Ne.symm hn)
      rw [if_neg hn, List.map_cons, ih, hb]
      simp only [List.map_cons, List.cons_append]
      split <;> rfl

/-- The members stand in the order in which they were first given. -/
def ClassInfo.Tidy (i : ClassInfo) : Prop := i.members.entries.map Prod.fst = i.order

theorem ClassInfo.Tidy.insertMember {e : Entity} (h : i.Tidy) :
    (i.insertMember name e).2.Tidy := by
  unfold Tidy ClassInfo.insertMember NameMap.insert
  rw [NameMap.keys_insertEntry, h]
  rfl

theorem ClassInfo.Tidy.change {op : ClassTable.Op} {f : ClassInfo → ClassInfo}
    (hf : op.change? = some f) (h : i.Tidy) : (f i).Tidy := by
  cases op with
  | enter | leave => cases hf
  | setParent | addMethod =>
    cases hf
    exact h
  | addField =>
    cases hf
    exact h.insertMember

def ClassTable.Tidy (t : ClassTable) : Prop := ∀ cls i, t.find? cls = some i → i.Tidy

theorem ClassTable.Tidy.of_mem (h : t.Tidy) : ∀ i ∈ t.classes, i.Tidy := by
  intro i hi
  obtain ⟨cls, -, hcls⟩ := List.mem_filterMap.mp hi
  exact h cls i hcls

theorem ClassTable.Effect.tidy {op : ClassTable.Op} (heff : t.Effect op t') (h : t.Tidy) :
    t'.Tidy :=
  heff.forall_records (I := fun _ i => i.Tidy) (fun _ _ => rfl)
    (fun _ _ _ hf _ _ hi => hi.change hf) h

/-! ### One record for one outline -/

/-- Bindings under different names are determined by the names and by what is found under them. -/
theorem eq_of_lookup {α : Type} : ∀ {l l' : List (String × α)}, l.map Prod.fst = l'.map Prod.fst →
    (l.map Prod.fst).Nodup → (∀ x, l.lookup x = l'.lookup x) → l = l'
  | [], [], _, _, _ => rfl
  | [], _ :: _, hkeys, _, _ => by cases hkeys
  | _ :: _, [], hkeys, _, _ => by cases hkeys
  | (n, a) :: l, (n', a') :: l', hkeys, hnodup, hlookup => by
    simp only [List.map_cons, List.cons.injEq, List.nodup_cons] at hkeys hnodup
    obtain ⟨rfl, hkeys⟩ := hkeys
    have ha : a = a' := by simpa [List.lookup_cons] using hlookup n
    -- the first name comes no second time
    have hnone : ∀ {l : List (String × α)}, n ∉ l.map Prod.fst → l.lookup n = none := by
      intro l hn
      refine List.lookup_eq_none_iff.mpr fun e he => ?_
      exact bne_iff_ne.mpr fun heq => hn (heq ▸ List.mem_map_of_mem he)
    have hrest : ∀ x, l.lookup x = l'.lookup x := by
      intro x
      by_cases hx : x = n
      · rw [hx, hnone hnodup.1, hnone (hkeys ▸ hnodup.1)]
      · simpa [List.lookup_cons, beq_eq_false_iff_ne.mpr hx] using hlookup x
    rw [ha, eq_of_lookup hkeys hnodup.2 hrest]

theorem MethodSet.eq_of_mem_iff {m m' : MethodSet} (hmem : ∀ s, s ∈ m.toList ↔ s ∈ m'.toList) :
    m = m' := by
  have hperm : m.toList.Perm m'.toList :=
    (List.perm_ext_iff_of_nodup m.nodup m'.nodup).mpr hmem
  refine ext_toList (hperm.eq_of_pairwise (fun s u _ _ hlt hgt => ?_) m.sorted m'.sorted)
  exact absurd (Std.TransCmp.lt_trans hlt hgt) (Signature.compare_self_ne_lt s)

/-- Tidy records of one outline are equal. -/
theorem ClassInfo.Records.eq_of_tidy (h : i.Records c) (h' : j.Records c) (hi : i.Tidy)
    (hj : j.Tidy) (hfields : (c.fields.map Prod.fst).Nodup) : i = j := by
  have horder : i.order = j.order := h.order.trans h'.order.symm
  have hmembers : i.members = j.members := by
    refine congrArg NameMap.mk (eq_of_lookup ?_ ?_ fun x => ?_)
    · rw [hi, hj, horder]
    · rw [hi, h.order]
      exact hfields
    · exact (h.member x).trans (h'.member x).symm
  have hmethods : i.methods = j.methods :=
    MethodSet.eq_of_mem_iff fun s => (h.method s).trans (h'.method s).symm
  obtain ⟨_, _, _, _, _⟩ := i
  obtain ⟨_, _, _, _, _⟩ := j
  cases horder
  cases hmembers
  cases hmethods
  cases h.name.trans h'.name.symm
  cases h.parent.trans h'.parent.symm
  rfl

/-! ### Searches in tables that are alike -/

namespace ClassTable

/-- The tables record classes that agree, with one record for a class of both. -/
structure Alike (t t' : ClassTable) (cs ds : List Outline) : Prop where
  left : t.Records cs
  right : t'.Records ds
  agree : Agree cs ds
  find?_eq : ∀ c ∈ cs, c ∈ ds → t.find? c.name = t'.find? c.name

theorem Records.alike (h : t.Records cs) (h' : t'.Records ds) (ht : t.Tidy) (ht' : t'.Tidy)
    (hagree : Agree cs ds) : t.Alike t' cs ds := by
  refine ⟨h, h', hagree, fun c hc hd => ?_⟩
  obtain ⟨i, hi, hic⟩ := h.find?_of_mem hc
  obtain ⟨j, hj, hjc⟩ := h'.find?_of_mem hd
  rw [hi, hj, hic.eq_of_tidy hjc (ht c.name i hi) (ht' c.name j hj)
    (hagree.left.fields c hc)]

namespace Alike

theorem find?_of_shared (h : t.Alike t' cs ds) (hcs : cls ∈ cs.map Outline.name)
    (hds : cls ∈ ds.map Outline.name) :
    ∃ c i, c ∈ cs ∧ c ∈ ds ∧ t.find? cls = some i ∧ t'.find? cls = some i ∧ i.Records c := by
  obtain ⟨c, hc, rfl⟩ := List.mem_map.mp hcs
  have hcds : c ∈ ds := h.agree.mem_right hc hds
  obtain ⟨i, hi, hic⟩ := h.left.find?_of_mem hc
  exact ⟨c, i, hc, hcds, hi, (h.find?_eq c hc hcds).symm.trans hi, hic⟩

/-- Walks of one length from a class of both go through the same records, all of classes of both. -/
theorem climb_eq (h : t.Alike t' cs ds) : ∀ (n : ℕ) {cls : String}, cls ∈ cs.map Outline.name →
    cls ∈ ds.map Outline.name → t.climb n (t.find? cls) = t'.climb n (t'.find? cls) ∧
      ∀ i ∈ t.climb n (t.find? cls), ∃ c ∈ cs, c ∈ ds ∧ i.Records c
  | 0, _, _, _ => ⟨rfl, List.forall_mem_nil _⟩
  | n + 1, cls, hcs, hds => by
    obtain ⟨c, i, hc, hcds, hi, hi', hic⟩ := h.find?_of_shared hcs hds
    rw [hi, hi', climb_succ, climb_succ, parent?, parent?]
    cases hq : i.parent with
    | none =>
      rw [Option.bind_none, Option.bind_none, climb_none, climb_none]
      exact ⟨rfl, List.forall_mem_singleton.mpr ⟨c, hc, hcds, hic⟩⟩
    | some q =>
      have hparent : c.parent = some q := hic.parent.symm.trans hq
      obtain ⟨heq, hall⟩ := h.climb_eq n (h.agree.left.parents c hc q hparent)
        (h.agree.right.parents c hcds q hparent)
      rw [Option.bind_some, Option.bind_some, ← heq]
      exact ⟨rfl, List.forall_mem_cons.mpr ⟨⟨c, hc, hcds, hic⟩, hall⟩⟩

/-- **A search from a class of both tables has one answer.** -/
theorem nearest?_eq {α : Type} {look look' : ClassInfo → Option α} (h : t.Alike t' cs ds)
    (hcs : cls ∈ cs.map Outline.name) (hds : cls ∈ ds.map Outline.name)
    (hlook : ∀ i, (∃ c ∈ cs, c ∈ ds ∧ i.Records c) → look i = look' i) :
    t.nearest? cls look = t'.nearest? cls look' := by
  -- walks that are long enough for both tables
  have hn : t.size ≤ max t.size t'.size := le_max_left ..
  have hn' : t'.size ≤ max t.size t'.size := le_max_right ..
  obtain ⟨heq, hall⟩ := h.climb_eq (max t.size t'.size) hcs hds
  rw [nearest?_eq_ancestors hn, nearest?_eq_ancestors hn', ancestors, ancestors, ← heq]
  rw [← List.head?_filterMap, ← List.head?_filterMap]
  refine congrArg List.head? (List.filterMap_congr fun e he => ?_)
  have hmem : e.1 ∈ t.climb (max t.size t'.size) (t.find? cls) := List.fst_mem_of_mem_zipIdx he
  simp only [hlook e.1 (hall e.1 hmem)]

theorem isOrBase_eq {a : Ty} (h : t.Alike t' cs ds) (ha : a.Shared cs ds) (b : Ty) :
    t.isOrBase b a = t'.isOrBase b a := by
  rw [Bool.eq_iff_iff, isOrBase_iff h.left h.agree.left, isOrBase_iff h.right h.agree.right]
  exact ⟨h.agree.fits ha.2, h.agree.symm.fits ha.1⟩

theorem accepts_eq (h : t.Alike t' cs ds) (hargs : ∀ a ∈ args, a.Shared cs ds)
    (params : List Ty) : t.accepts params args = t'.accepts params args := by
  rw [Bool.eq_iff_iff, accepts_iff h.left h.agree.left, accepts_iff h.right h.agree.right]
  exact ⟨h.agree.fits_all fun a ha => (hargs a ha).2,
    h.agree.symm.fits_all fun a ha => (hargs a ha).1⟩

theorem overloadIn_eq (h : t.Alike t' cs ds) (hargs : ∀ a ∈ args, a.Shared cs ds) (i : ClassInfo)
    (name : String) : t.overloadIn i name args = t'.overloadIn i name args := by
  unfold overloadIn
  simp only [h.accepts_eq hargs]

theorem resolveMethod_eq (h : t.Alike t' cs ds) (hcs : cls ∈ cs.map Outline.name)
    (hds : cls ∈ ds.map Outline.name) (hargs : ∀ a ∈ args, a.Shared cs ds) (name : String) :
    t.resolveMethod cls name args = t'.resolveMethod cls name args := by
  rw [t.resolveMethod_eq_nearest (h.left.contains_iff.mpr hcs),
    t'.resolveMethod_eq_nearest (h.right.contains_iff.mpr hds)]
  have hoffer : t.nearest? cls (t.offer name args) = t'.nearest? cls (t'.offer name args) := by
    refine h.nearest?_eq hcs hds fun i _ => ?_
    rw [offer, offer, h.overloadIn_eq hargs]
  rw [hoffer]

theorem resolveConstructor_eq (h : t.Alike t' cs ds) (hcs : cls ∈ cs.map Outline.name)
    (hds : cls ∈ ds.map Outline.name) (hargs : ∀ a ∈ args, a.Shared cs ds) :
    t.resolveConstructor cls args = t'.resolveConstructor cls args := by
  obtain ⟨c, i, -, -, hi, hi', -⟩ := h.find?_of_shared hcs hds
  unfold resolveConstructor
  simp only [hi, hi', h.overloadIn_eq hargs]

end Alike

end ClassTable

/-! ### Tables of analyses -/

theorem Program.tidy_of_analyze {q : Program} (h : p.analyze = .ok t q) : t.Tidy :=
  (p.forall_tables (I := ClassTable.Tidy) (fun _ _ hi => (nomatch hi))
    fun _ _ _ _ heff h => heff.tidy h).2 t q h

/-- **Analyses of programs that agree give tables that are alike.** -/
theorem Program.alike_of_analyze {q p' q' : Program} (h : p.analyze = .ok t q)
    (h' : p'.analyze = .ok t' q') (hagree : Agree q.outlines q'.outlines) :
    t.Alike t' q.outlines q'.outlines := by
  obtain ⟨-, -, -, hrecords, -⟩ := of_analyze_ok h
  obtain ⟨-, -, -, hrecords', -⟩ := of_analyze_ok h'
  exact hrecords.alike hrecords' (tidy_of_analyze h) (tidy_of_analyze h') hagree

end ClassLang
