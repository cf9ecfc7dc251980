import ClassLang.Proofs.Typing.Unique

/-!
# The places where an expression stands

`Program.sites` lists every expression of a program, parts of expressions included, next to the
context in which it stands. In a program that keeps to the rules every one of them is typed, in
classes that stand together (`Program.Ok.typed_of_mem_sites`). So what the rules say of single
expressions can be said of all expressions of a program.
-/

namespace ClassLang

/-! ### The expressions of a program -/

mutual

/-- The expression and all its parts. -/
def Expr.nodes : Expr → List Expr
  | .number m n => [.number m n]
  | .bool m b => [.bool m b]
  | .this m => [.this m]
  | .var m o x b ob => [.var m o x b ob]
  | .binary m op l r => .binary m op l r :: (l.nodes ++ r.nodes)
  | .unary m op x => .unary m op x :: x.nodes
  | .call m o f args b ob => .call m o f args b ob :: Expr.nodesList args
  | .create m c args b => .create m c args b :: Expr.nodesList args

def Expr.nodesList : List Expr → List Expr
  | [] => []
  | e :: rest => e.nodes ++ Expr.nodesList rest

end

/-- An expression with the context it stands in. -/
abbrev Site := Context × Expr

def Expr.sites (Γ : Context) (e : Expr) : List Site := e.nodes.map fun n => (Γ, n)

def Expr.sitesOption (Γ : Context) (e : Option Expr) : List Site := e.toList.flatMap (Expr.sites Γ)

mutual

def Stmt.sites : Context → Stmt → List Site
  | Γ, .block _ body => Stmt.sitesList Γ body
  | Γ, .ifThen _ c t => c.sites Γ ++ Stmt.sitesList Γ t
  | Γ, .ifElse _ c t f => c.sites Γ ++ (Stmt.sitesList Γ t ++ Stmt.sitesList Γ f)
  | Γ, .loop _ c body => c.sites Γ ++ Stmt.sitesList Γ body
  | Γ, .assign _ target value => target.sites Γ ++ value.sites Γ
  | Γ, .declare _ _ _ init => Expr.sitesOption Γ init
  | Γ, .ret _ value => Expr.sitesOption Γ value
  | Γ, .print _ value => value.sites Γ
  | Γ, .eval _ value => value.sites Γ

def Stmt.sitesList : Context → List Stmt → List Site
  | _, [] => []
  | Γ, s :: rest => s.sites Γ ++ Stmt.sitesList (s.after Γ) rest

end

def Member.sites (classes : List Outline) (cls : String) : Member → List Site
  | .field .. => []
  | .method ret _ r => Stmt.sitesList (.ofBody classes cls ret r.params) r.body
  | .constructor r => Stmt.sitesList (.ofBody classes cls (.cls cls) r.params) r.body

def ClassDecl.sites (earlier : List Outline) (c : ClassDecl) : List Site :=
  c.members.flatMap (Member.sites (earlier ++ [c.outline]) c.name)

def ClassDecl.sitesList : List Outline → List ClassDecl → List Site
  | _, [] => []
  | earlier, c :: rest => c.sites earlier ++ ClassDecl.sitesList (earlier ++ [c.outline]) rest

/-- Every expression of the program, with the context it stands in. -/
def Program.sites (p : Program) : List Site := ClassDecl.sitesList [] p.classes

/-! ### Each is typed -/

variable {ρ : Reading} {Γ Δ : Context} {e n : Expr} {τ : Ty}

mutual

theorem HasType.of_mem_nodes : ∀ {e : Expr} {τ : Ty}, HasType ρ Γ e τ →
    n ∈ e.nodes → ∃ σ, HasType ρ Γ n σ
  | .number .., _, h, hn => by
    rw [List.mem_singleton.mp hn]
    exact ⟨_, h⟩
  | .bool .., _, h, hn => by
    rw [List.mem_singleton.mp hn]
    exact ⟨_, h⟩
  | .this _, _, h, hn => by
    rw [List.mem_singleton.mp hn]
    exact ⟨_, h⟩
  | .var .., _, h, hn => by
    rw [List.mem_singleton.mp hn]
    exact ⟨_, h⟩
  | .binary .., _, h, hn => by
    rcases List.mem_cons.mp hn with rfl | hn
    · exact ⟨_, h⟩
    · cases h with
      | binary hl hr =>
        rcases List.mem_append.mp hn with hn | hn
        · exact HasType.of_mem_nodes hl hn
        · exact HasType.of_mem_nodes hr hn
  | .unary .., _, h, hn => by
    rcases List.mem_cons.mp hn with rfl | hn
    · exact ⟨_, h⟩
    · cases h with
      | unary hx => exact HasType.of_mem_nodes hx hn
  | .call .., _, h, hn => by
    rcases List.mem_cons.mp hn with rfl | hn
    · exact ⟨_, h⟩
    · cases h with
      | call _ hargs => exact HasTypes.of_mem_nodes hargs hn
  | .create .., _, h, hn => by
    rcases List.mem_cons.mp hn with rfl | hn
    · exact ⟨_, h⟩
    · cases h with
      | create _ hargs => exact HasTypes.of_mem_nodes hargs hn

theorem HasTypes.of_mem_nodes : ∀ {es : List Expr} {τs : List Ty}, HasTypes ρ Γ es τs →
    n ∈ Expr.nodesList es → ∃ σ, HasType ρ Γ n σ
  | [], _, _, hn => nomatch hn
  | e :: es, _, h, hn => by
    cases h with
    | cons he hes =>
      rcases List.mem_append.mp hn with hn | hn
      · exact HasType.of_mem_nodes he hn
      · exact HasTypes.of_mem_nodes hes hn

end

/-- The site is typed, and its context has the given classes. -/
def Site.Typed (ρ : Reading) (classes : List Outline) (site : Site) : Prop :=
  site.1.classes = classes ∧ ∃ τ, HasType ρ site.1 site.2 τ

theorem HasType.typed_sites (h : HasType ρ Γ e τ) : ∀ site ∈ e.sites Γ, site.Typed ρ Γ.classes := by
  intro site hs
  obtain ⟨n, hn, rfl⟩ := List.mem_map.mp hs
  exact ⟨rfl, h.of_mem_nodes hn⟩

theorem Stmt.classes_after (Γ : Context) (s : Stmt) : (s.after Γ).classes = Γ.classes := by
  cases s <;> rfl

mutual

theorem Stmt.Ok.typed_sites : ∀ {s : Stmt} {Γ : Context}, s.Ok ρ Γ →
    ∀ site ∈ s.sites Γ, site.Typed ρ Γ.classes
  | .block .., _, .block h => Stmt.AllOk.typed_sites h
  | .ifThen .., _, .ifThen hc ht =>
    List.forall_mem_append.mpr ⟨hc.typed_sites, Stmt.AllOk.typed_sites ht⟩
  | .ifElse .., _, .ifElse hc ht hf =>
    List.forall_mem_append.mpr ⟨hc.typed_sites, List.forall_mem_append.mpr
      ⟨Stmt.AllOk.typed_sites ht, Stmt.AllOk.typed_sites hf⟩⟩
  | .loop .., _, .loop hc h =>
    List.forall_mem_append.mpr ⟨hc.typed_sites, Stmt.AllOk.typed_sites h⟩
  | .assign .., _, .assign _ ht hv _ =>
    List.forall_mem_append.mpr ⟨ht.typed_sites, hv.typed_sites⟩
  | .declare _ _ _ none, _, .declare _ => List.forall_mem_nil _
  | .declare _ _ _ (some _), _, .init _ hv _ => by
    simpa [Stmt.sites, Expr.sitesOption] using hv.typed_sites
  | .ret _ none, _, .leave _ => List.forall_mem_nil _
  | .ret _ (some _), _, .ret _ hv _ => by
    simpa [Stmt.sites, Expr.sitesOption] using hv.typed_sites
  | .print .., _, .print hv _ => hv.typed_sites
  | .eval .., _, .eval hv => hv.typed_sites

theorem Stmt.AllOk.typed_sites : ∀ {ss : List Stmt} {Γ : Context}, Stmt.AllOk ρ Γ ss →
    ∀ site ∈ Stmt.sitesList Γ ss, site.Typed ρ Γ.classes
  | [], _, .nil => List.forall_mem_nil _
  | s :: _, Γ, .cons hs hrest => by
    -- what follows stands in another context, but among the same classes
    have hafter := Stmt.AllOk.typed_sites hrest
    rw [Stmt.classes_after] at hafter
    exact List.forall_mem_append.mpr ⟨Stmt.Ok.typed_sites hs, hafter⟩

end

theorem Member.Ok.typed_sites {classes : List Outline} {cls : String} {m : Member}
    (h : m.Ok ρ classes cls) : ∀ site ∈ m.sites classes cls, site.Typed ρ classes := by
  cases h with
  | field => exact List.forall_mem_nil _
  | method _ h => exact Stmt.AllOk.typed_sites h
  | constructor _ h => exact Stmt.AllOk.typed_sites h

theorem ClassDecl.AllOk.typed_sites : ∀ {cs : List ClassDecl} {earlier : List Outline},
    ClassDecl.AllOk ρ earlier cs → Hierarchy earlier → ∀ site ∈ ClassDecl.sitesList earlier cs,
      ∃ classes, classes <+: earlier ++ cs.map ClassDecl.outline ∧ Hierarchy classes ∧
        site.Typed ρ classes
  | [], _, .nil, _ => List.forall_mem_nil _
  | c :: rest, earlier, .cons hc hrest, hearlier => by
    have hcs := hc.toFormed.hierarchy hearlier
    intro site hs
    rcases List.mem_append.mp hs with hs | hs
    · obtain ⟨m, hm, hs⟩ := List.mem_flatMap.mp hs
      refine ⟨earlier ++ [c.outline], ?_, hcs, (hc.bodies m hm).typed_sites site hs⟩
      exact List.prefix_append_right_inj .. |>.mpr (by simp)
    · obtain ⟨classes, hpre, hrest⟩ := ClassDecl.AllOk.typed_sites hrest hcs site hs
      refine ⟨classes, ?_, hrest⟩
      rwa [List.append_assoc] at hpre

theorem ClassDecl.AllOk.exists_ok {c : ClassDecl} : ∀ {cs : List ClassDecl}
    {earlier : List Outline}, ClassDecl.AllOk ρ earlier cs → c ∈ cs → ∃ before, c.Ok ρ before
  | _ :: _, _, .cons hd hrest, hc => by
    rcases List.mem_cons.mp hc with rfl | hc
    · exact ⟨_, hd⟩
    · exact ClassDecl.AllOk.exists_ok hrest hc

/-- **In a program that keeps to the rules every expression is typed**, in a context whose classes
are the first so many of the program. -/
theorem Program.Ok.typed_of_mem_sites {p : Program} (h : p.Ok ρ) (hs : (Γ, e) ∈ p.sites) :
    Γ.classes <+: p.outlines ∧ Hierarchy Γ.classes ∧
      ∃ τ, HasType ρ Γ e τ := by
  obtain ⟨classes, hpre, hcs, rfl, htyped⟩ := ClassDecl.AllOk.typed_sites h .nil (Γ, e) hs
  exact ⟨hpre, hcs, htyped⟩

end ClassLang
