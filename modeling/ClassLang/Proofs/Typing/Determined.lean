import ClassLang.Proofs.Tree.Blank
import ClassLang.Proofs.Typing.Agree

/-!
# Annotations are determined by the declarations

An annotated tree is determined by what it says and by the classes it has to do with. Two trees that
are equal when blank, each annotated among its own classes, hold the same annotations if the classes
agree (`HasType.agree`, `Stmt.Ok.agree`, `ClassDecl.Ok.agree`). Neither list of classes need hold
the other: both trees keep to the rules, so both lists have the classes that the tree speaks of.
-/

namespace ClassLang

section

variable {Γ Δ : Context} {x : String} {τ σ : Ty}

/-! ### Expressions -/

theorem Mark.eq_of_bare {m m' : Mark} (h : m.bare = m'.bare) (hty : m.ty = .filled τ)
    (hty' : m'.ty = .filled τ) : m = m' := by
  obtain ⟨span, ty⟩ := m
  obtain ⟨span', ty'⟩ := m'
  cases Mark.bare_eq_iff.mp h
  cases hty
  cases hty'
  rfl

/-- The slot of an object is filled if there is an object, and is otherwise as it was. -/
theorem Slot.eq_of_blankFor {α : Type} {o : Option String} {s s' : Slot α} {a : α}
    (h : s.blankFor o = s'.blankFor o) (hs : o.isSome → s = .filled a)
    (hs' : o.isSome → s' = .filled a) : s = s' := by
  cases o with
  | none => exact h
  | some o => rw [hs rfl, hs' rfl]

mutual

/-- **An annotated expression is determined by what it says**, among classes that agree. -/
theorem HasType.agree (h : Γ.Agree Δ) : ∀ {e e' : Expr} {τ σ : Ty}, HasType .annotated Γ e τ →
    HasType .annotated Δ e' σ → e.blank = e'.blank → e = e' ∧ τ = σ
  | .number m n, e', _, _, .number hm, he', hb => by
    cases e' <;> simp only [Expr.blank, Expr.number.injEq, reduceCtorEq] at hb
    obtain ⟨hmark, rfl⟩ := hb
    cases he' with
    | number hm' => exact ⟨by rw [Mark.eq_of_bare hmark hm hm'], rfl⟩
  | .bool m n, e', _, _, .bool hm, he', hb => by
    cases e' <;> simp only [Expr.blank, Expr.bool.injEq, reduceCtorEq] at hb
    obtain ⟨hmark, rfl⟩ := hb
    cases he' with
    | bool hm' => exact ⟨by rw [Mark.eq_of_bare hmark hm hm'], rfl⟩
  | .this m, e', _, _, .this hd hm, he', hb => by
    cases e' <;> simp only [Expr.blank, Expr.this.injEq, reduceCtorEq] at hb
    cases he' with
    | this hd' hm' =>
      obtain rfl := (h.declares hd).unique hd'
      exact ⟨by rw [Mark.eq_of_bare hb hm hm'], rfl⟩
  | .var m none x b ob, e', _, _, .var hx hm hb, he', hblank => by
    cases e' <;> simp only [Expr.blank, Expr.var.injEq, reduceCtorEq] at hblank
    obtain ⟨hmark, rfl, rfl, -, hob⟩ := hblank
    cases he' with
    | var hx' hm' hb' =>
      obtain ⟨rfl, rfl⟩ := h.eq_of_var hx hx'
      cases hb
      cases hb'
      cases hob
      exact ⟨by rw [Mark.eq_of_bare hmark hm hm'], rfl⟩
  | .var m (some o) x b ob, e', _, _, .field ho hf hm hb hob, he', hblank => by
    cases e' <;> simp only [Expr.blank, Expr.var.injEq, reduceCtorEq] at hblank
    obtain ⟨hmark, rfl, rfl, -⟩ := hblank
    cases he' with
    | field ho' hf' hm' hb' hob' =>
      obtain ⟨rfl, rfl⟩ := h.eq_of_object ho ho'
      obtain ⟨rfl, rfl⟩ := h.classes.eq_of_fieldOf hf hf'
      cases hb
      cases hb'
      cases hob
      cases hob'
      exact ⟨by rw [Mark.eq_of_bare hmark hm hm'], rfl⟩
  | .binary m op l r, e', _, _, .binary hl hr hop hm, he', hb => by
    cases e' <;> simp only [Expr.blank, Expr.binary.injEq, reduceCtorEq] at hb
    obtain ⟨hmark, rfl, hbl, hbr⟩ := hb
    cases he' with
    | binary hl' hr' hop' hm' =>
      obtain ⟨rfl, rfl⟩ := HasType.agree h hl hl' hbl
      obtain ⟨rfl, rfl⟩ := HasType.agree h hr hr' hbr
      obtain rfl := hop.unique hop'
      exact ⟨by rw [Mark.eq_of_bare hmark hm hm'], rfl⟩
  | .unary m op x, e', _, _, .unary hx hop hm, he', hb => by
    cases e' <;> simp only [Expr.blank, Expr.unary.injEq, reduceCtorEq] at hb
    obtain ⟨hmark, rfl, hbx⟩ := hb
    cases he' with
    | unary hx' hop' hm' =>
      obtain ⟨rfl, rfl⟩ := HasType.agree h hx hx' hbx
      obtain rfl := hop.unique hop'
      exact ⟨by rw [Mark.eq_of_bare hmark hm hm'], rfl⟩
  | .call m o f args b ob, e', _, _, .call ho hargs hc hm hb hob, he', hblank => by
    cases e' <;> simp only [Expr.blank, Expr.call.injEq, reduceCtorEq] at hblank
    obtain ⟨hmark, rfl, rfl, hbargs, -, hslot⟩ := hblank
    cases he' with
    | call ho' hargs' hc' hm' hb' hob' =>
      obtain ⟨rfl, rfl⟩ := h.eq_of_object ho ho'
      obtain ⟨rfl, rfl⟩ := HasTypes.agree h hargs hargs' hbargs
      obtain rfl := h.classes.eq_of_calls (h.shared hargs hargs') hc hc'
      cases hb
      cases hb'
      exact ⟨by rw [Mark.eq_of_bare hmark hm hm', Slot.eq_of_blankFor hslot hob hob'], rfl⟩
  | .create m cls args b, e', _, _, .create hcls hargs hc hm hb, he', hblank => by
    cases e' <;> simp only [Expr.blank, Expr.create.injEq, reduceCtorEq] at hblank
    obtain ⟨hmark, rfl, hbargs, -⟩ := hblank
    cases he' with
    | create _ hargs' hc' hm' hb' =>
      obtain ⟨rfl, rfl⟩ := HasTypes.agree h hargs hargs' hbargs
      obtain rfl := h.classes.eq_of_creates (h.shared hargs hargs') hc hc'
      cases hb
      cases hb'
      exact ⟨by rw [Mark.eq_of_bare hmark hm hm'], rfl⟩

theorem HasTypes.agree (h : Γ.Agree Δ) : ∀ {es es' : List Expr} {τs σs : List Ty},
    HasTypes .annotated Γ es τs → HasTypes .annotated Δ es' σs →
      Expr.blankList es = Expr.blankList es' → es = es' ∧ τs = σs
  | [], [], _, _, .nil, .nil, _ => ⟨rfl, rfl⟩
  | [], _ :: _, _, _, _, _, hb => by cases hb
  | _ :: _, [], _, _, _, _, hb => by cases hb
  | e :: es, e' :: es', _, _, .cons he hes, .cons he' hes', hb => by
    obtain ⟨hbe, hbes⟩ := List.cons.inj hb
    obtain ⟨rfl, rfl⟩ := HasType.agree h he he' hbe
    obtain ⟨rfl, rfl⟩ := HasTypes.agree h hes hes' hbes
    exact ⟨rfl, rfl⟩

end

/-! ### Statements -/

theorem Context.Agree.bind (h : Γ.Agree Δ) (hΓ : τ.Known Γ.names) (hΔ : τ.Known Δ.names) :
    (Γ.bind x τ).Agree (Δ.bind x τ) where
  classes := h.classes
  locals := by rw [Context.bind, Context.bind, h.locals]
  left := ⟨h.left.hierarchy, h.left.returns, List.forall_mem_cons.mpr ⟨hΓ, h.left.locals⟩⟩
  right := ⟨h.right.hierarchy, h.right.returns, List.forall_mem_cons.mpr ⟨hΔ, h.right.locals⟩⟩

mutual

/-- **An annotated statement is determined by what it says**, and so is what is known after it. -/
theorem Stmt.Ok.agree : ∀ {s s' : Stmt} {Γ Δ : Context}, Γ.Agree Δ → s.Ok .annotated Γ →
    s'.Ok .annotated Δ → s.blank = s'.blank → s = s' ∧ (s.after Γ).Agree (s'.after Δ)
  | .block sp body, s', Γ, Δ, h, .block hbody, hs', hb => by
    cases s' <;> simp only [Stmt.blank, Stmt.block.injEq, reduceCtorEq] at hb
    obtain ⟨rfl, hb⟩ := hb
    cases hs' with
    | block hbody' => exact ⟨by rw [Stmt.AllOk.agree h hbody hbody' hb], h⟩
  | .ifThen sp c t, s', Γ, Δ, h, .ifThen hc ht, hs', hb => by
    cases s' <;> simp only [Stmt.blank, Stmt.ifThen.injEq, reduceCtorEq] at hb
    obtain ⟨rfl, hbc, hbt⟩ := hb
    cases hs' with
    | ifThen hc' ht' =>
      exact ⟨by rw [(hc.agree h hc' hbc).1, Stmt.AllOk.agree h ht ht' hbt], h⟩
  | .ifElse sp c t f, s', Γ, Δ, h, .ifElse hc ht hf, hs', hb => by
    cases s' <;> simp only [Stmt.blank, Stmt.ifElse.injEq, reduceCtorEq] at hb
    obtain ⟨rfl, hbc, hbt, hbf⟩ := hb
    cases hs' with
    | ifElse hc' ht' hf' =>
      exact ⟨by rw [(hc.agree h hc' hbc).1, Stmt.AllOk.agree h ht ht' hbt,
        Stmt.AllOk.agree h hf hf' hbf], h⟩
  | .loop sp c body, s', Γ, Δ, h, .loop hc hbody, hs', hb => by
    cases s' <;> simp only [Stmt.blank, Stmt.loop.injEq, reduceCtorEq] at hb
    obtain ⟨rfl, hbc, hbbody⟩ := hb
    cases hs' with
    | loop hc' hbody' =>
      exact ⟨by rw [(hc.agree h hc' hbc).1, Stmt.AllOk.agree h hbody hbody' hbbody], h⟩
  | .assign sp target value, s', Γ, Δ, h, .assign _ ht hv _, hs', hb => by
    cases s' <;> simp only [Stmt.blank, Stmt.assign.injEq, reduceCtorEq] at hb
    obtain ⟨rfl, hbt, hbv⟩ := hb
    cases hs' with
    | assign _ ht' hv' _ => exact ⟨by rw [(ht.agree h ht' hbt).1, (hv.agree h hv' hbv).1], h⟩
  | .declare sp ty x none, s', Γ, Δ, h, .declare hty, hs', hb => by
    cases s' <;> simp only [Stmt.blank, Stmt.declare.injEq, reduceCtorEq] at hb
    obtain ⟨rfl, rfl, rfl, hinit⟩ := hb
    cases hs' with
    | declare hty' => exact ⟨rfl, h.bind hty.2 hty'.2⟩
    | init => simp at hinit
  | .declare sp ty x (some value), s', Γ, Δ, h, .init hty hv _, hs', hb => by
    cases s' <;> simp only [Stmt.blank, Stmt.declare.injEq, reduceCtorEq] at hb
    obtain ⟨rfl, rfl, rfl, hinit⟩ := hb
    cases hs' with
    | declare => simp at hinit
    | init hty' hv' _ =>
      rw [(hv.agree h hv' (Option.some.inj hinit)).1]
      exact ⟨rfl, h.bind hty.2 hty'.2⟩
  | .ret sp none, s', Γ, Δ, h, .leave _, hs', hb => by
    cases s' <;> simp only [Stmt.blank, Stmt.ret.injEq, reduceCtorEq] at hb
    obtain ⟨rfl, hvalue⟩ := hb
    cases hs' with
    | leave => exact ⟨rfl, h⟩
    | ret => simp at hvalue
  | .ret sp (some value), s', Γ, Δ, h, .ret _ hv _, hs', hb => by
    cases s' <;> simp only [Stmt.blank, Stmt.ret.injEq, reduceCtorEq] at hb
    obtain ⟨rfl, hvalue⟩ := hb
    cases hs' with
    | leave => simp at hvalue
    | ret _ hv' _ => exact ⟨by rw [(hv.agree h hv' (Option.some.inj hvalue)).1], h⟩
  | .print sp value, s', Γ, Δ, h, .print hv _, hs', hb => by
    cases s' <;> simp only [Stmt.blank, Stmt.print.injEq, reduceCtorEq] at hb
    obtain ⟨rfl, hbv⟩ := hb
    cases hs' with
    | print hv' _ => exact ⟨by rw [(hv.agree h hv' hbv).1], h⟩
  | .eval sp value, s', Γ, Δ, h, .eval hv, hs', hb => by
    cases s' <;> simp only [Stmt.blank, Stmt.eval.injEq, reduceCtorEq] at hb
    obtain ⟨rfl, hbv⟩ := hb
    cases hs' with
    | eval hv' => exact ⟨by rw [(hv.agree h hv' hbv).1], h⟩

theorem Stmt.AllOk.agree : ∀ {ss ss' : List Stmt} {Γ Δ : Context}, Γ.Agree Δ →
    Stmt.AllOk .annotated Γ ss → Stmt.AllOk .annotated Δ ss' →
      Stmt.blankList ss = Stmt.blankList ss' → ss = ss'
  | [], [], _, _, _, _, _, _ => rfl
  | [], _ :: _, _, _, _, _, _, hb => by cases hb
  | _ :: _, [], _, _, _, _, _, hb => by cases hb
  | s :: ss, s' :: ss', Γ, Δ, h, .cons hs hss, .cons hs' hss', hb => by
    obtain ⟨hbs, hbss⟩ := List.cons.inj hb
    obtain ⟨rfl, hafter⟩ := Stmt.Ok.agree h hs hs' hbs
    rw [Stmt.AllOk.agree hafter hss hss' hbss]

end

end

/-! ### Classes -/

section

variable {cs ds : List Outline} {cls : String}

/-- The contexts in which the body of a member of one class begins. -/
theorem Context.agree_ofBody (ret : Ty) {r : Routine} (h : ClassLang.Agree cs ds)
    (hcs : Returns cs) (hds : Returns ds) (hcls : (Ty.cls cls).Shared cs ds)
    (hparams : ∀ τ ∈ r.paramTypes, τ.Storable (cs.map Outline.name))
    (hparams' : ∀ τ ∈ r.paramTypes, τ.Storable (ds.map Outline.name)) :
    (Context.ofBody cs cls ret r.params).Agree (Context.ofBody ds cls ret r.params) := by
  have hlocals : ∀ e ∈ (r.params.map fun q => (q.name, q.ty)).reverse ++ [(receiverName, .cls cls)],
      e.2.Shared cs ds := by
    refine List.forall_mem_append.mpr ⟨fun e he => ?_, List.forall_mem_singleton.mpr hcls⟩
    obtain ⟨q, hq, rfl⟩ := List.mem_map.mp (List.mem_reverse.mp he)
    have hmem : q.ty ∈ r.paramTypes := List.mem_map_of_mem hq
    exact ⟨(hparams _ hmem).2, (hparams' _ hmem).2⟩
  exact ⟨h, rfl, ⟨h.left, hcs, fun e he => (hlocals e he).1⟩,
    ⟨h.right, hds, fun e he => (hlocals e he).2⟩⟩

/-- Routines with equal parameters, bodies and signatures. -/
theorem Routine.eq_of_blank {r r' : Routine} {s : Signature} (h : r.blank = r'.blank)
    (hbody : r.body = r'.body) (hs : r.signature = .filled s) (hs' : r'.signature = .filled s) :
    r = r' := by
  obtain ⟨span, params, body, signature⟩ := r
  obtain ⟨span', params', body', signature'⟩ := r'
  simp only [Routine.blank, Routine.mk.injEq] at h hbody hs hs' ⊢
  exact ⟨h.1, h.2.1, hbody, hs.trans hs'.symm⟩

theorem Member.Ok.agree {m m' : Member} (h : Agree cs ds) (hcs : Returns cs) (hds : Returns ds)
    (hcls : (Ty.cls cls).Shared cs ds) (ht : m.Typed (cs.map Outline.name))
    (ht' : m'.Typed (ds.map Outline.name)) (hm : m.Ok .annotated cs cls)
    (hm' : m'.Ok .annotated ds cls) (hb : m.blank = m'.blank) : m = m' := by
  have hparams : ∀ {r r' : Routine}, r.blank = r'.blank → r.params = r'.params :=
    fun hr => (Routine.mk.inj hr).2.1
  have hbody : ∀ {r r' : Routine}, r.blank = r'.blank →
      Stmt.blankList r.body = Stmt.blankList r'.body := fun hr => (Routine.mk.inj hr).2.2.1
  cases hm with
  | field =>
    cases hm' with
    | field => exact hb
    | method => cases hb
    | constructor => cases hb
  | @method ret f r hs hok =>
    cases hm' with
    | field => cases hb
    | constructor => cases hb
    | @method ret' f' r' hs' hok' =>
      obtain ⟨rfl, rfl, hr⟩ := Member.method.inj hb
      cases ht with
      | method _ htyped =>
      cases ht' with
      | method _ htyped' =>
      have hsame := hparams hr
      rw [Routine.paramTypes, ← hsame, ← Routine.paramTypes] at hs' htyped'
      rw [← hsame] at hok'
      have hctx := Context.agree_ofBody ret h hcs hds hcls htyped htyped'
      rw [Routine.eq_of_blank hr (Stmt.AllOk.agree hctx hok hok' (hbody hr)) hs hs']
  | @constructor r hs hok =>
    cases hm' with
    | field => cases hb
    | method => cases hb
    | @constructor r' hs' hok' =>
      have hr := Member.constructor.inj hb
      cases ht with
      | constructor htyped =>
      cases ht' with
      | constructor htyped' =>
      have hsame := hparams hr
      rw [Routine.paramTypes, ← hsame, ← Routine.paramTypes] at hs' htyped'
      rw [← hsame] at hok'
      have hctx := Context.agree_ofBody (.cls cls) h hcs hds hcls htyped htyped'
      rw [Routine.eq_of_blank hr (Stmt.AllOk.agree hctx hok hok' (hbody hr)) hs hs']

end

theorem eq_of_map_eq {α β : Type} {g : α → β} : ∀ {l l' : List α},
    (∀ a ∈ l, ∀ b ∈ l', g a = g b → a = b) → l.map g = l'.map g → l = l'
  | [], [], _, _ => rfl
  | [], _ :: _, _, h => by cases h
  | _ :: _, [], _, h => by cases h
  | a :: l, b :: l', hinj, h => by
    obtain ⟨hab, hl⟩ := List.cons.inj h
    rw [hinj a (List.mem_cons_self ..) b (List.mem_cons_self ..) hab,
      eq_of_map_eq (fun a ha b hb => hinj a (List.mem_cons_of_mem _ ha) b
        (List.mem_cons_of_mem _ hb)) hl]

section

variable {ρ : Reading} {earlier earlier' : List Outline}

/-- **An annotated class is determined by what it says**, after classes that agree. -/
theorem ClassDecl.Ok.agree {c c' : ClassDecl}
    (h : Agree (earlier ++ [c.outline]) (earlier' ++ [c'.outline]))
    (hcs : Returns (earlier ++ [c.outline])) (hds : Returns (earlier' ++ [c'.outline]))
    (hc : c.Ok .annotated earlier) (hc' : c'.Ok .annotated earlier') (hb : c.blank = c'.blank) :
    c = c' := by
  have hmembers : c.members = c'.members := by
    obtain ⟨-, hname, -, hmap⟩ := ClassDecl.mk.inj hb
    refine eq_of_map_eq (fun m hm m' hm' hmm => ?_) hmap
    have hshared : (Ty.cls c.name).Shared (earlier ++ [c.outline]) (earlier' ++ [c'.outline]) :=
      ⟨c.known_self, hname ▸ c'.known_self⟩
    exact Member.Ok.agree h hcs hds hshared (hc.typed m hm) (hc'.typed m' hm') (hc.bodies m hm)
      (hname ▸ hc'.bodies m' hm') hmm
  obtain ⟨span, name, parent, members⟩ := c
  obtain ⟨span', name', parent', members'⟩ := c'
  obtain ⟨rfl, rfl, rfl, -⟩ := ClassDecl.mk.inj hb
  cases hmembers
  rfl

/-- A class stands among those before it. -/
theorem ClassDecl.AllOk.split {c : ClassDecl} {r : List ClassDecl} : ∀ {l : List ClassDecl}
    {earlier : List Outline}, ClassDecl.AllOk ρ earlier (l ++ c :: r) → Hierarchy earlier →
    Returns earlier → c.Ok ρ (earlier ++ l.map ClassDecl.outline) ∧
      Hierarchy (earlier ++ l.map ClassDecl.outline ++ [c.outline]) ∧
      Returns (earlier ++ l.map ClassDecl.outline ++ [c.outline])
  | [], earlier, .cons hc _, hcs, hret => by
    rw [List.map_nil, List.append_nil]
    exact ⟨hc, hc.toFormed.hierarchy hcs, hc.toFormed.returns hret⟩
  | d :: l, earlier, .cons hd hrest, hcs, hret => by
    have hsplit := hrest.split (hd.toFormed.hierarchy hcs) (hd.toFormed.returns hret)
    rw [List.append_assoc, List.singleton_append] at hsplit
    exact hsplit

theorem Program.Ok.split {p : Program} {l r : List ClassDecl} {c : ClassDecl} (h : p.Ok ρ)
    (hp : p.classes = l ++ c :: r) : c.Ok ρ (l.map ClassDecl.outline) ∧
      Hierarchy (l.map ClassDecl.outline ++ [c.outline]) ∧
      Returns (l.map ClassDecl.outline ++ [c.outline]) := by
  rw [Program.Ok, hp] at h
  simpa using h.split .nil (List.forall_mem_nil _)

/-- The classes up to one of a program are classes of the program. -/
theorem Program.outlines_of_split {p : Program} {l r : List ClassDecl} {c : ClassDecl}
    (hp : p.classes = l ++ c :: r) : l.map ClassDecl.outline ++ [c.outline] ⊆ p.outlines := by
  intro d hd
  rw [Program.outlines, hp, List.map_append, List.map_cons]
  simp only [List.mem_append, List.mem_cons, List.not_mem_nil, or_false] at hd ⊢
  exact hd.imp_right .inl

/-- **In annotated programs that agree a common class is annotated alike.** -/
theorem Program.Ok.agree {p p' : Program} (h : Agree p.outlines p'.outlines)
    (hp : p.Ok .annotated) (hp' : p'.Ok .annotated) {c c' : ClassDecl} (hc : c ∈ p.classes)
    (hc' : c' ∈ p'.classes) (hb : c.blank = c'.blank) : c = c' := by
  obtain ⟨l, r, hl⟩ := List.append_of_mem hc
  obtain ⟨l', r', hl'⟩ := List.append_of_mem hc'
  obtain ⟨hok, hcs, hret⟩ := hp.split hl
  obtain ⟨hok', hds, hret'⟩ := hp'.split hl'
  have hagree : Agree (l.map ClassDecl.outline ++ [c.outline])
      (l'.map ClassDecl.outline ++ [c'.outline]) :=
    ⟨fun d hd e he => h.same d (outlines_of_split hl hd) e (outlines_of_split hl' he), hcs, hds⟩
  exact hok.agree hagree hret hret' hok' hb

/-- **An annotated program is determined by what it says.** -/
theorem Program.Ok.eq_of_blank {p p' : Program} (h : p.Ok .annotated) (h' : p'.Ok .annotated)
    (hp' : Hierarchy p'.outlines) (hblank : p.blank = p'.blank) : p = p' := by
  have houtlines : p.outlines = p'.outlines := by
    refine outlines_eq_of_bare ?_
    rw [← bare_blank, hblank, bare_blank]
  have hagree : Agree p.outlines p'.outlines := by
    rw [houtlines]
    exact ⟨fun c hc d hd hname => hp'.eq_of_name hc hd hname, hp', hp'⟩
  have hclasses : p.classes = p'.classes :=
    eq_of_map_eq (fun c hc c' hc' hcc => h.agree hagree h' hc hc' hcc) (Program.mk.inj hblank)
  obtain ⟨classes⟩ := p
  obtain ⟨classes'⟩ := p'
  exact congrArg Program.mk hclasses

end

end ClassLang
