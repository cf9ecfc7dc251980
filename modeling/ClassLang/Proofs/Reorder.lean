import ClassLang.Proofs.Mirror
import ClassLang.Proofs.Table.Alike
import ClassLang.Proofs.Typing.Determined
import ClassLang.Proofs.Typing.Reorder

/-!
# Members may stand in any order

The members of a class are entered one after the other, and their bodies are checked one after the
other. Still their order decides neither whether the program is accepted nor what the slots of a
member are filled with, and of the table it decides the order of the fields only
(`Program.members_in_any_order`).

That the program is accepted is `Program.Ok.reorder`, by way of the rules. For the slots, put the
members of the annotated tree in the other order: it is annotated still, and an annotated tree is
determined by what it says (`Program.Ok.eq_of_blank`), so it is the one that the other analysis
leaves. The records are compared by what they mirror (`ClassInfo.Mirrors.rearranges`).
-/

namespace ClassLang

variable {l r : List ClassDecl} {c : ClassDecl} {ms : List Member}

/-! ### Lists side by side -/

/-- What stands beside a list can follow it into another order. -/
theorem exists_beside_of_perm {α β : Type} {R : α → β → Prop} {as as' : List α} {bs : List β}
    (hperm : as'.Perm as) (h : List.Forall₂ R as bs) :
    ∃ bs', List.Forall₂ R as' bs' ∧ bs'.Perm bs ∧ (as'.zip bs').Perm (as.zip bs) := by
  have hlen : as.length = bs.length := h.length_eq
  have hpairs : List.Forall₂ (fun a z => a = z.1) as (as.zip bs) := by
    have hfst : as = (as.zip bs).map Prod.fst := (List.map_fst_zip hlen.le).symm
    rw [← List.forall₂_eq_eq_eq] at hfst
    exact List.forall₂_map_right_iff.mp hfst
  obtain ⟨zs, hzs, hzsperm⟩ := List.perm_comp_forall₂ hperm hpairs
  have hfst : zs.map Prod.fst = as' := by
    have heq : List.Forall₂ Eq as' (zs.map Prod.fst) := List.forall₂_map_right_iff.mpr hzs
    rw [List.forall₂_eq_eq_eq] at heq
    exact heq.symm
  have hzip : zs = as'.zip (zs.map Prod.snd) := List.zip_of_prod hfst rfl
  refine ⟨zs.map Prod.snd, ?_, ?_, hzip ▸ hzsperm⟩
  · refine List.forall₂_iff_zip.mpr ⟨by rw [← hfst, List.length_map, List.length_map], ?_⟩
    intro a b hab
    rw [← hzip, hzsperm.mem_iff] at hab
    exact List.forall₂_zip h hab
  · have hsnd := hzsperm.map Prod.snd
    rwa [List.map_snd_zip hlen.ge] at hsnd

/-- What stands beside a list is divided as the list is. -/
theorem exists_beside_of_append {α β : Type} {R : α → β → Prop} {b : β} {bs' : List β} :
    ∀ {bs : List β} {as : List α}, List.Forall₂ R as (bs ++ b :: bs') →
      ∃ l a l', as = l ++ a :: l' ∧ List.Forall₂ R l bs ∧ R a b ∧ List.Forall₂ R l' bs'
  | [], _ :: _, .cons h hs => ⟨[], _, _, rfl, .nil, h, hs⟩
  | _ :: _, a :: _, .cons h hs => by
    obtain ⟨l, a', l', rfl, hl, ha, hl'⟩ := exists_beside_of_append hs
    exact ⟨a :: l, a', l', rfl, .cons h hl, ha, hl'⟩

/-! ### Records -/

namespace ClassInfo

variable {i i' : ClassInfo}

/-- The records differ at most in the order of their members, and the second has them in the order
of the fields among `ms`. -/
structure Rearranges (i i' : ClassInfo) (ms : List Member) : Prop where
  name : i'.name = i.name
  parent : i'.parent = i.parent
  methods : i'.methods = i.methods
  member : ∀ x, i'.members.get? x = i.members.get? x
  inOrder : i'.membersInOrder = (ms.filterMap Member.field?).map fun f => (f.1, .value f.2)

theorem Mirrors.rearranges (h : i.Mirrors c) (h' : i'.Mirrors { c with members := ms })
    (hms : ms.Perm c.members) : i.Rearranges i' ms := by
  refine ⟨h'.name.trans h.name.symm, h'.parent.trans h.parent.symm, ?_, fun x => ?_, h'.fields⟩
  · refine MethodSet.eq_of_mem_iff fun s => ?_
    rw [h'.methods, h.methods]
    exact or_congr_right (hms.filterMap _).mem_iff
  · ext e
    rw [h'.member, h.member, h'.fields, h.fields]
    exact ((hms.filterMap _).map _).mem_iff

/-- Tidy records of one list of outlines are equal. -/
theorem eq_of_records : ∀ {is is' : List ClassInfo} {cs : List Outline},
    List.Forall₂ Records is cs → List.Forall₂ Records is' cs → (∀ i ∈ is, i.Tidy) →
      (∀ i ∈ is', i.Tidy) → (∀ o ∈ cs, (o.fields.map Prod.fst).Nodup) → is = is'
  | _, _, _, .nil, .nil, _, _, _ => rfl
  | _, _, _, .cons hi his, .cons hi' his', htidy, htidy', hcs => by
    rw [List.forall_mem_cons] at htidy htidy' hcs
    rw [hi.eq_of_tidy hi' htidy.1 htidy'.1 hcs.1, eq_of_records his his' htidy.2 htidy'.2 hcs.2]

end ClassInfo

/-! ### Programs -/

namespace Program

variable {q q' : Program} {t t' : ClassTable}

theorem reorders_of_perm (hms : ms.Perm c.members) :
    List.Forall₂ ClassDecl.Reorders (l ++ c :: r) (l ++ { c with members := ms } :: r) := by
  have hrefl : ∀ cs : List ClassDecl, List.Forall₂ ClassDecl.Reorders cs cs := fun cs =>
    List.forall₂_same.mpr fun d _ => .refl d
  exact List.rel_append (hrefl l) (.cons ⟨rfl, rfl, hms⟩ (hrefl r))

/-- The members of the annotated tree follow those of the program. -/
theorem annotated_alike (hms : ms.Perm c.members) (h : analyze ⟨l ++ c :: r⟩ = .ok t q)
    (h' : analyze ⟨l ++ { c with members := ms } :: r⟩ = .ok t' q') :
    ∃ L d R ds, q.classes = L ++ d :: R ∧ q'.classes = L ++ { d with members := ds } :: R ∧
      L.length = l.length ∧ d.members.length = c.members.length ∧ ds.length = ms.length ∧
      (ms.zip ds).Perm (c.members.zip d.members) := by
  obtain ⟨-, hok, -, -, -⟩ := of_analyze_ok h
  obtain ⟨-, hok', -, -, hclasses⟩ := of_analyze_ok h'
  -- the class among those that are left
  have hblank : q.classes.map ClassDecl.blank = (l ++ c :: r).map ClassDecl.blank :=
    Program.mk.inj (blank_of_analyze h)
  rw [List.map_append, List.map_cons, List.map_eq_append_iff] at hblank
  obtain ⟨L, R', hq, hL, hR'⟩ := hblank
  obtain ⟨d, R, rfl, hd, hR⟩ := List.map_eq_cons_iff.mp hR'
  obtain ⟨hspan, hname, hparent, hmembers⟩ := ClassDecl.mk.inj hd
  have hbeside : List.Forall₂ (fun m n : Member => n.blank = m.blank) c.members d.members := by
    rw [← List.forall₂_eq_eq_eq, List.forall₂_map_left_iff, List.forall₂_map_right_iff] at hmembers
    exact hmembers.flip
  obtain ⟨ds, hds, hperm, hzip⟩ := exists_beside_of_perm hms hbeside
  -- the annotated class in the other order is what the other analysis leaves
  have hreordered : Ok .annotated ⟨L ++ { d with members := ds } :: R⟩ := by
    refine Program.Ok.reorder ?_ hok
    rw [hq]
    exact reorders_of_perm hperm
  have hq' : ⟨L ++ { d with members := ds } :: R⟩ = q' := by
    refine hreordered.eq_of_blank hok' hclasses ?_
    rw [blank_of_analyze h']
    have hsame : ds.map Member.blank = ms.map Member.blank := by
      rw [← List.forall₂_eq_eq_eq, List.forall₂_map_left_iff, List.forall₂_map_right_iff]
      exact hds.flip
    simp only [blank, List.map_append, List.map_cons, hL, hR, ClassDecl.blank, hsame, hspan, hname,
      hparent]
  refine ⟨L, d, R, ds, hq, (congrArg Program.classes hq').symm, ?_, hbeside.length_eq.symm,
    hds.length_eq.symm, hzip⟩
  rw [← List.length_map, hL, List.length_map]

/-- The classes of the tables are the same, but for the order of the fields in one. -/
theorem classes_alike (hms : ms.Perm c.members) (h : analyze ⟨l ++ c :: r⟩ = .ok t q)
    (h' : analyze ⟨l ++ { c with members := ms } :: r⟩ = .ok t' q') :
    ∃ L i i' R, t.classes = L ++ i :: R ∧ t'.classes = L ++ i' :: R ∧ L.length = l.length ∧
      i.name = c.name ∧ i.Rearranges i' ms := by
  obtain ⟨-, -, hbare, hrecords, hclasses⟩ := of_analyze_ok h
  obtain ⟨-, -, hbare', hrecords', -⟩ := of_analyze_ok h'
  rw [outlines_eq_of_bare hbare] at hrecords hclasses
  rw [outlines_eq_of_bare hbare'] at hrecords'
  rw [outlines, List.map_append, List.map_cons] at hrecords hrecords'
  obtain ⟨L, i, R, ht, hL, hi, hR⟩ := exists_beside_of_append hrecords.classes
  obtain ⟨L', i', R', ht', hL', hi', hR'⟩ := exists_beside_of_append hrecords'.classes
  have htidy : ∀ j ∈ L ++ i :: R, j.Tidy := ht ▸ (tidy_of_analyze h).of_mem
  have htidy' : ∀ j ∈ L' ++ i' :: R', j.Tidy := ht' ▸ (tidy_of_analyze h').of_mem
  have hfields := hclasses.fields
  rw [outlines, List.map_append, List.map_cons] at hfields
  rw [List.forall_mem_append, List.forall_mem_cons] at htidy htidy' hfields
  obtain rfl : L = L' := ClassInfo.eq_of_records hL hL' htidy.1 htidy'.1 hfields.1
  obtain rfl : R = R' := ClassInfo.eq_of_records hR hR' htidy.2.2 htidy'.2.2 hfields.2.2
  have hmirrors : i.Mirrors c := mirrors_of_records h (by simp) hi
  have hmirrors' : i'.Mirrors { c with members := ms } := mirrors_of_records h' (by simp) hi'
  have hlen : L.length = l.length := by
    rw [hL.length_eq, List.length_map]
  exact ⟨L, i, i', R, ht, ht', hlen, hi.name, hmirrors.rearranges hmirrors' hms⟩

/-- Tables in step that list the same classes, but for one, have the same order and the same records
of the others. -/
theorem find?_eq_of_classes {L R : List ClassInfo} {i i' : ClassInfo} (hstep : t.InStep)
    (hstep' : t'.InStep) (ht : t.classes = L ++ i :: R) (ht' : t'.classes = L ++ i' :: R)
    (hname : i'.name = i.name) :
    t'.order = t.order ∧ ∀ cls, cls ≠ i.name → t'.find? cls = t.find? cls := by
  constructor
  · rw [← hstep.names, ← hstep'.names, ht, ht', List.map_append, List.map_append, List.map_cons,
      List.map_cons, hname]
  · intro cls hne
    have hi : (i.name == cls) = false := beq_eq_false_iff_ne.mpr (Ne.symm hne)
    rw [hstep.find?_eq, hstep'.find?_eq, ht, ht', List.find?_append, List.find?_append,
      List.find?_cons, List.find?_cons, hname, hi]

theorem tables_alike (hms : ms.Perm c.members) (h : analyze ⟨l ++ c :: r⟩ = .ok t q)
    (h' : analyze ⟨l ++ { c with members := ms } :: r⟩ = .ok t' q') :
    (t'.order = t.order ∧ ∀ cls, cls ≠ c.name → t'.find? cls = t.find? cls) ∧
    ∃ L i i' R, t.classes = L ++ i :: R ∧ t'.classes = L ++ i' :: R ∧ L.length = l.length ∧
      i.name = c.name ∧ i.Rearranges i' ms := by
  obtain ⟨-, -, -, hrecords, -⟩ := of_analyze_ok h
  obtain ⟨-, -, -, hrecords', -⟩ := of_analyze_ok h'
  obtain ⟨L, i, i', R, ht, ht', hlen, hname, hrecord⟩ := classes_alike hms h h'
  have hothers := find?_eq_of_classes hrecords.inStep hrecords'.inStep ht ht' hrecord.name
  rw [hname] at hothers
  exact ⟨hothers, L, i, i', R, ht, ht', hlen, hname, hrecord⟩

/-- **Members may stand in any order.** Put the members of one class of a program in another order.
The new program is accepted just if the old one is. The trees that are left are then equal, but that
the class has its annotated members in the new order: each member is left with the same annotations.
The tables are equal, but that the record of the class lists its fields in the new order. -/
theorem members_in_any_order (hms : ms.Perm c.members) :
    ((∃ t q, analyze ⟨l ++ c :: r⟩ = .ok t q) ↔
      ∃ t q, analyze ⟨l ++ { c with members := ms } :: r⟩ = .ok t q) ∧
    ∀ t q t' q', analyze ⟨l ++ c :: r⟩ = .ok t q →
      analyze ⟨l ++ { c with members := ms } :: r⟩ = .ok t' q' →
      (∃ L d R ds, q.classes = L ++ d :: R ∧ q'.classes = L ++ { d with members := ds } :: R ∧
        L.length = l.length ∧ d.members.length = c.members.length ∧ ds.length = ms.length ∧
        (ms.zip ds).Perm (c.members.zip d.members)) ∧
      t'.current = t.current ∧
      (t'.order = t.order ∧ ∀ cls, cls ≠ c.name → t'.find? cls = t.find? cls) ∧
      ∃ L i i' R, t.classes = L ++ i :: R ∧ t'.classes = L ++ i' :: R ∧ L.length = l.length ∧
        i.name = c.name ∧ i.Rearranges i' ms := by
  refine ⟨?_, fun t q t' q' h h' => ⟨annotated_alike hms h h', ?_, tables_alike hms h h'⟩⟩
  · rw [analyze_ok_iff, analyze_ok_iff]
    have hback : List.Forall₂ ClassDecl.Reorders (l ++ { c with members := ms } :: r)
        (l ++ c :: r) :=
      reorders_of_perm (c := { c with members := ms }) hms.symm
    exact ⟨fun hok => Program.Ok.reorder (reorders_of_perm hms) hok,
      fun hok => Program.Ok.reorder hback hok⟩
  · rw [current_of_analyze h, current_of_analyze h']

/-- In `drawing` with the members of `Point` reversed, the record of `Point` has the methods it had,
and its fields the other way round. -/
theorem drawing_reversed : ∃ t q t' q' i i' rest, drawing.analyze = .ok t q ∧
    analyze ⟨[{ point with members := point.members.reverse }, pixel]⟩ = .ok t' q' ∧
    t.classes = i :: rest ∧ t'.classes = i' :: rest ∧ i'.methods = i.methods ∧
    i'.membersInOrder = [("x", .value .bool), ("y", .value .int)] := by
  obtain ⟨haccepted, halike⟩ := members_in_any_order (l := []) (r := [pixel])
    (List.reverse_perm point.members)
  obtain ⟨t, h⟩ : ∃ t, drawing.analyze = .ok t drawing.analyze.state :=
    Outcome.eq_ok_of_isOk (by decide +kernel)
  obtain ⟨t', q', h'⟩ := haccepted.mp ⟨t, _, h⟩
  obtain ⟨-, -, -, L, i, i', R, ht, ht', hlen, -, hrecord⟩ := halike t _ t' q' h h'
  obtain rfl : L = [] := List.length_eq_zero_iff.mp hlen
  exact ⟨t, _, t', q', i, i', R, h, h', ht, ht', hrecord.methods, hrecord.inOrder⟩

end Program

end ClassLang
