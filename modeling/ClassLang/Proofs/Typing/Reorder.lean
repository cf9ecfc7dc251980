import ClassLang.Proofs.Typing.Classes
import ClassLang.Proofs.Typing.Sites
import Mathlib.Data.List.Perm.Basic

/-!
# The rules do not see the order of members

The rules ask of a class which fields and signatures it has, never where they stand. So what holds
among some classes holds among the same classes with their members in another order
(`Reordered.nearest`, `HasType.reorder`, `Stmt.Ok.reorder`). What a class must keep to in its own
declarations is asked of every member or of every two of them, so a class may be reordered itself
(`ClassDecl.Ok.reorder`), and with it a whole program (`Program.Ok.reorder`).

Both readings of the slots are covered: if a tree is annotated, reordering keeps it annotated.
-/

namespace ClassLang

variable {cs ds : List Outline} {c d : Outline} {cls f x : String} {args : List Ty}
  {s : Signature} {a b τ : Ty} {vb : VarBinding} {target : MethodBinding} {ρ : Reading}

/-! ### Classes with their members in another order -/

/-- The outlines list the same, each in its own order. -/
structure Outline.Reorders (c d : Outline) : Prop where
  name : d.name = c.name
  parent : d.parent = c.parent
  fields : d.fields.Perm c.fields
  signatures : d.signatures.Perm c.signatures

namespace Outline.Reorders

theorem symm (h : c.Reorders d) : d.Reorders c :=
  ⟨h.name.symm, h.parent.symm, h.fields.symm, h.signatures.symm⟩

theorem hasField_iff (h : c.Reorders d) :
    x ∈ c.fields.map Prod.fst ↔ x ∈ d.fields.map Prod.fst :=
  (h.fields.map Prod.fst).mem_iff.symm

theorem offers (h : c.Reorders d) (hs : c.Offers s) : d.Offers s := by
  cases hs with
  | initial =>
    rw [← h.name]
    exact .initial
  | declared hs => exact .declared (h.signatures.mem_iff.mpr hs)

end Outline.Reorders

/-- Each class of one list stands in the other, with its members in some order. -/
structure Reordered (cs ds : List Outline) : Prop where
  right : ∀ c ∈ cs, ∃ d ∈ ds, c.Reorders d
  left : ∀ d ∈ ds, ∃ c ∈ cs, d.Reorders c

namespace Reordered

theorem nil : Reordered [] [] := ⟨List.forall_mem_nil _, List.forall_mem_nil _⟩

theorem symm (h : Reordered cs ds) : Reordered ds cs := ⟨h.left, h.right⟩

theorem snoc (h : Reordered cs ds) (hcd : c.Reorders d) : Reordered (cs ++ [c]) (ds ++ [d]) := by
  have hsnoc : ∀ {cs ds : List Outline} {c d : Outline}, (∀ c ∈ cs, ∃ d ∈ ds, c.Reorders d) →
      c.Reorders d → ∀ e ∈ cs ++ [c], ∃ e' ∈ ds ++ [d], e.Reorders e' := by
    intro cs ds c d h hcd e he
    rcases List.mem_append.mp he with he | he
    · obtain ⟨e', he', hee'⟩ := h e he
      exact ⟨e', List.mem_append_left _ he', hee'⟩
    · rw [List.mem_singleton.mp he]
      exact ⟨d, List.mem_append_right _ (List.mem_singleton_self _), hcd⟩
  exact ⟨hsnoc h.right hcd, hsnoc h.left hcd.symm⟩

theorem names_subset (h : Reordered cs ds) : cs.map Outline.name ⊆ ds.map Outline.name := by
  intro name hname
  obtain ⟨c, hc, rfl⟩ := List.mem_map.mp hname
  obtain ⟨d, hd, hcd⟩ := h.right c hc
  rw [← hcd.name]
  exact List.mem_map_of_mem hd

/-! ### What is found among them -/

theorem fits (h : Reordered cs ds) (hab : a.Fits cs b) : a.Fits ds b := by
  refine Relation.ReflTransGen.mono (fun a b hstep => ?_) a b hab
  cases hstep with
  | @mk c q hc hq =>
    obtain ⟨d, hd, hcd⟩ := h.right c hc
    rw [← hcd.name]
    exact ⟨hd, hcd.parent.trans hq⟩

theorem candidate (h : Reordered cs ds) (hcd : c.Reorders d) (hs : c.Candidate cs f args s) :
    d.Candidate ds f args s := by
  obtain ⟨ho, hname, hargs⟩ := hs
  exact ⟨hcd.offers ho, hname, hargs.imp fun _ _ => h.fits⟩

theorem candidate_iff (h : Reordered cs ds) (hcd : c.Reorders d) :
    c.Candidate cs f args s ↔ d.Candidate ds f args s :=
  ⟨h.candidate hcd, h.symm.candidate hcd.symm⟩

theorem selects (h : Reordered cs ds) (hcd : c.Reorders d) (hs : c.Selects cs f args s) :
    d.Selects ds f args s := by
  cases hs with
  | exact ho hname hparams => exact .exact (hcd.offers ho) hname hparams
  | only hc honly =>
    refine .only (h.candidate hcd hc) fun t ht => ?_
    exact honly t ((h.candidate_iff hcd).mpr ht)

/-- The way up from a class goes through the same classes. -/
theorem nearest {P Q : Outline → Prop} (h : Reordered cs ds)
    (hPQ : ∀ c d, c.Reorders d → (P c ↔ Q d)) (hc : Nearest cs P cls c) :
    ∃ d, Nearest ds Q cls d ∧ c.Reorders d := by
  induction hc with
  | @here name c hc hname hP =>
    obtain ⟨d, hd, hcd⟩ := h.right c hc
    exact ⟨d, .here hd (hcd.name.trans hname) ((hPQ c d hcd).mp hP), hcd⟩
  | @up name q c e hc hname hP hq _ ih =>
    obtain ⟨d, hd, hcd⟩ := h.right c hc
    obtain ⟨e', he', hee'⟩ := ih
    exact ⟨e', .up hd (hcd.name.trans hname) (mt (hPQ c d hcd).mpr hP) (hcd.parent.trans hq)
      he', hee'⟩

theorem fieldOf (h : Reordered cs ds) (hf : FieldOf cs cls x c a) :
    ∃ d, FieldOf ds cls x d a ∧ d.name = c.name := by
  obtain ⟨d, hd, hcd⟩ := h.nearest (fun _ _ hcd => hcd.hasField_iff) hf.nearest
  exact ⟨d, ⟨hd, hcd.fields.mem_iff.mpr hf.field⟩, hcd.name⟩

theorem calls (h : Reordered cs ds) (hc : Calls cs cls f args target) :
    Calls ds cls f args target := by
  obtain ⟨owner, hr, ho⟩ := hc
  obtain ⟨d, hd, hcd⟩ :=
    h.nearest (fun _ _ hcd => exists_congr fun s => h.candidate_iff (s := s) hcd) hr.nearest
  exact ⟨d, ⟨hd, h.selects hcd hr.selects⟩, hcd.name.trans ho⟩

theorem creates (h : Reordered cs ds) (hc : Creates cs cls args target) :
    Creates ds cls args target := by
  obtain ⟨c, hc, hname, hsel, howner⟩ := hc
  obtain ⟨d, hd, hcd⟩ := h.right c hc
  exact ⟨d, hd, hcd.name.trans hname, h.selects hcd hsel, howner⟩

end Reordered

/-! ### Expressions -/

namespace Context

/-- The context among other classes. -/
def among (Γ : Context) (ds : List Outline) : Context := { Γ with classes := ds }

variable {Γ : Context}

theorem Var.reorder (h : Reordered Γ.classes ds) (hx : Γ.Var x τ vb) :
    (Γ.among ds).Var x τ vb := by
  cases hx with
  | scope hname hd => exact .scope hname hd
  | member hname hthis hf =>
    obtain ⟨d, hd, hdname⟩ := h.fieldOf hf
    rw [← hdname]
    exact .member hname hthis hd

theorem Object.reorder {o : Option String} (h : Reordered Γ.classes ds) (ho : Γ.Object o cls vb) :
    (Γ.among ds).Object o cls vb := by
  cases ho with
  | implicit hd => exact .implicit hd
  | receiver hd => exact .receiver hd
  | named hname hx => exact .named hname (hx.reorder h)

end Context

section

variable {Γ : Context}

mutual

theorem HasType.reorder (h : Reordered Γ.classes ds) : ∀ {e : Expr} {τ : Ty}, HasType ρ Γ e τ →
    HasType ρ (Γ.among ds) e τ
  | .number .., _, .number hm => .number hm
  | .bool .., _, .bool hm => .bool hm
  | .this _, _, .this hd hm => .this hd hm
  | .var _ none .., _, .var hx hm hb => .var (hx.reorder h) hm hb
  | .var _ (some _) .., _, .field ho hf hm hb hob => by
    obtain ⟨d, hd, hdname⟩ := h.fieldOf hf
    rw [← hdname] at hb
    exact .field (ho.reorder h) hd hm hb hob
  | .binary .., _, .binary hl hr hop hm =>
    .binary (HasType.reorder h hl) (HasType.reorder h hr) hop hm
  | .unary .., _, .unary hx hop hm => .unary (HasType.reorder h hx) hop hm
  | .call .., _, .call ho hargs hc hm hb hob =>
    .call (ho.reorder h) (HasTypes.reorder h hargs) (h.calls hc) hm hb hob
  | .create .., _, .create hcls hargs hc hm hb =>
    .create hcls (HasTypes.reorder h hargs) (h.creates hc) hm hb

theorem HasTypes.reorder (h : Reordered Γ.classes ds) : ∀ {es : List Expr} {τs : List Ty},
    HasTypes ρ Γ es τs → HasTypes ρ (Γ.among ds) es τs
  | [], _, .nil => .nil
  | _ :: _, _, .cons he hes => .cons (HasType.reorder h he) (HasTypes.reorder h hes)

end

end

/-! ### Statements -/

theorem Stmt.among_after (Γ : Context) (s : Stmt) :
    (s.after Γ).among ds = s.after (Γ.among ds) := by
  cases s <;> rfl

mutual

theorem Stmt.Ok.reorder : ∀ {s : Stmt} {Γ : Context}, Reordered Γ.classes ds → s.Ok ρ Γ →
    s.Ok ρ (Γ.among ds)
  | .block .., _, h, .block hbody => .block (Stmt.AllOk.reorder h hbody)
  | .ifThen .., _, h, .ifThen hc ht => .ifThen (hc.reorder h) (Stmt.AllOk.reorder h ht)
  | .ifElse .., _, h, .ifElse hc ht hf =>
    .ifElse (hc.reorder h) (Stmt.AllOk.reorder h ht) (Stmt.AllOk.reorder h hf)
  | .loop .., _, h, .loop hc hbody => .loop (hc.reorder h) (Stmt.AllOk.reorder h hbody)
  | .assign .., _, h, .assign hvar ht hv hfit =>
    .assign hvar (ht.reorder h) (hv.reorder h) (h.fits hfit)
  | .declare _ _ _ none, _, h, .declare hτ => .declare (hτ.mono h.names_subset)
  | .declare _ _ _ (some _), _, h, .init hτ hv hfit =>
    .init (hτ.mono h.names_subset) (hv.reorder h) (h.fits hfit)
  | .ret _ none, _, _, .leave hret => .leave hret
  | .ret _ (some _), _, h, .ret hret hv hfit => .ret hret (hv.reorder h) (h.fits hfit)
  | .print .., _, h, .print hv hτ => .print (hv.reorder h) hτ
  | .eval .., _, h, .eval hv => .eval (hv.reorder h)

theorem Stmt.AllOk.reorder : ∀ {ss : List Stmt} {Γ : Context}, Reordered Γ.classes ds →
    Stmt.AllOk ρ Γ ss → Stmt.AllOk ρ (Γ.among ds) ss
  | [], _, _, .nil => .nil
  | s :: _, Γ, h, .cons hs hrest => by
    have hafter := Stmt.AllOk.reorder ((Stmt.classes_after Γ s).symm ▸ h) hrest
    rw [Stmt.among_after] at hafter
    exact .cons (Stmt.Ok.reorder h hs) hafter

end

/-! ### Members and classes -/

theorem Member.Ok.reorder {m : Member} (h : Reordered cs ds) (hm : m.Ok ρ cs cls) :
    m.Ok ρ ds cls := by
  cases hm with
  | field => exact .field
  | method hs hbody => exact .method hs (hbody.reorder h)
  | constructor hs hbody => exact .constructor hs (hbody.reorder h)

/-- The classes declare the same members, each in its own order. -/
structure ClassDecl.Reorders (c d : ClassDecl) : Prop where
  name : d.name = c.name
  parent : d.parent = c.parent
  members : d.members.Perm c.members

namespace ClassDecl

variable {c d : ClassDecl} {earlier earlier' : List Outline}

theorem Reorders.refl (c : ClassDecl) : c.Reorders c := ⟨rfl, rfl, .refl _⟩

theorem Reorders.outline (h : c.Reorders d) : c.outline.Reorders d.outline := by
  refine ⟨h.name, h.parent, h.members.filterMap _, ?_⟩
  show (d.members.filterMap (Member.signature? d.name)).Perm c.outline.signatures
  rw [h.name]
  exact h.members.filterMap _

theorem Formed.reorder (h : Reordered earlier earlier') (hcd : c.Reorders d)
    (hc : c.Formed earlier) : d.Formed earlier' := by
  have hall := h.snoc hcd.outline
  constructor
  · intro hname
    rw [hcd.name] at hname
    exact hc.fresh (h.symm.names_subset hname)
  · intro q hq
    exact hall.names_subset (hc.parent q (hcd.parent.symm.trans hq))
  · exact fun m hm => (hc.typed m (hcd.members.mem_iff.mp hm)).mono hall.names_subset
  · exact (hcd.members.pairwise_iff fun hmn => hmn.symm).mpr hc.apart
  · exact fun m hm => hc.initial m (hcd.members.mem_iff.mp hm)

theorem Ok.reorder (h : Reordered earlier earlier') (hcd : c.Reorders d) (hc : c.Ok ρ earlier) :
    d.Ok ρ earlier' := by
  refine ⟨hc.toFormed.reorder h hcd, fun m hm => ?_⟩
  rw [hcd.name]
  exact (hc.bodies m (hcd.members.mem_iff.mp hm)).reorder (h.snoc hcd.outline)

theorem AllOk.reorder : ∀ {l l' : List ClassDecl} {earlier earlier' : List Outline},
    Reordered earlier earlier' → List.Forall₂ Reorders l l' → AllOk ρ earlier l →
      AllOk ρ earlier' l'
  | _, _, _, _, _, .nil, .nil => .nil
  | _, _, _, _, h, .cons hcd hrest, .cons hc hok =>
    .cons (hc.reorder h hcd) (AllOk.reorder (h.snoc hcd.outline) hrest hok)

end ClassDecl

/-- **A program that keeps to the rules does so with its members in any order**, plain or
annotated. -/
theorem Program.Ok.reorder {p p' : Program}
    (h : List.Forall₂ ClassDecl.Reorders p.classes p'.classes) (hp : p.Ok ρ) : p'.Ok ρ :=
  ClassDecl.AllOk.reorder .nil h hp

end ClassLang
