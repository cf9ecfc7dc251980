import ClassLang.Tree.Program
import Mathlib.Data.List.Forall2
import Mathlib.Data.List.Nodup
import Mathlib.Logic.Relation

/-!
# Classes as their declarations give them

The typing rules see a class through its `Outline`: its name, its parent, its fields and the
signatures of its methods and constructors. Here are the relations between classes that the rules
speak of, stated on a list of outlines: which type fits where another one is expected (`Ty.Fits`),
which class is the nearest with a property on the way up from a class (`Nearest`), and which method
a call means (`Resolves`).

A way up may have no end, since a class may be its own parent. The relations are inductive: what
is found is found after finitely many steps, and on a way without end nothing else is found.
-/

namespace ClassLang

/-- What is found under a name stands there. -/
theorem mem_of_lookup {α : Type} {l : List (String × α)} {x : String} {a : α}
    (h : l.lookup x = some a) : (x, a) ∈ l := by
  obtain ⟨before, after, hl, -⟩ := List.lookup_eq_some_iff.mp h
  rw [hl]
  exact List.mem_append_right _ (List.mem_cons_self ..)

/-- What a class declares. -/
structure Outline where
  name : String
  parent : Option String
  fields : List (String × Ty)
  signatures : List Signature

def Member.field? : Member → Option (String × Ty)
  | .field _ ty name => some (name, ty)
  | _ => none

/-- The signature of a member of class `cls`, if the member is a method or constructor. -/
def Member.signature? (cls : String) : Member → Option Signature
  | .field .. => none
  | .method ret name r => some ⟨name, r.paramTypes, ret⟩
  | .constructor r => some (.ofConstructor cls r.paramTypes)

/-- The outline of a class with the given members. -/
def Outline.ofMembers (name : String) (parent : Option String) (members : List Member) :
    Outline where
  name
  parent
  fields := members.filterMap Member.field?
  signatures := members.filterMap (Member.signature? name)

def ClassDecl.outline (c : ClassDecl) : Outline := .ofMembers c.name c.parent c.members

def Program.outlines (p : Program) : List Outline := p.classes.map ClassDecl.outline

/-! ### Types -/

namespace Ty

/-- A class type names one of the classes. -/
def Known (classes : List String) (ty : Ty) : Prop := ∀ name, ty = .cls name → name ∈ classes

/-- The type of a field, parameter or local. -/
def Storable (classes : List String) (ty : Ty) : Prop := ty ≠ .void ∧ ty.Known classes

/-- From a class to its parent. -/
inductive ParentOf (cs : List Outline) : Ty → Ty → Prop
  | mk {c : Outline} {q : String} (hc : c ∈ cs) (hq : c.parent = some q) :
    ParentOf cs (.cls c.name) (.cls q)

/-- A value of type `actual` may stand where `expected` is required: the types are equal, or
`expected` is reached from `actual` by going from class to parent. -/
def Fits (cs : List Outline) (actual expected : Ty) : Prop :=
  Relation.ReflTransGen (ParentOf cs) actual expected

end Ty

/-! ### Looking up from a class -/

/-- The first class with `P` on the way up from the class called `name`. -/
inductive Nearest (cs : List Outline) (P : Outline → Prop) : String → Outline → Prop
  | here {name : String} {c : Outline} (hc : c ∈ cs) (hname : c.name = name) (hP : P c) :
    Nearest cs P name c
  | up {name q : String} {c d : Outline} (hc : c ∈ cs) (hname : c.name = name) (hP : ¬ P c)
    (hq : c.parent = some q) (h : Nearest cs P q d) : Nearest cs P name d

namespace Outline

/-- The methods and constructors of a class: those it declares, and a constructor that takes
nothing. -/
inductive Offers (c : Outline) : Signature → Prop
  | initial : c.Offers (.ofConstructor c.name [])
  | declared {s : Signature} (h : s ∈ c.signatures) : c.Offers s

/-- A method of the class that the arguments fit. -/
def Candidate (cs : List Outline) (c : Outline) (name : String) (args : List Ty) (s : Signature) :
    Prop :=
  c.Offers s ∧ s.name = name ∧ List.Forall₂ (Ty.Fits cs) args s.params

/-- The method a class has for a call: the one that takes just the types of the arguments, or else
the only one that they fit. -/
inductive Selects (cs : List Outline) (c : Outline) (name : String) (args : List Ty) :
    Signature → Prop
  | exact {s : Signature} (h : c.Offers s) (hname : s.name = name) (hargs : s.params = args) :
    c.Selects cs name args s
  | only {s : Signature} (h : c.Candidate cs name args s)
    (honly : ∀ t, c.Candidate cs name args t → t = s) : c.Selects cs name args s

end Outline

/-- The method `s` of class `owner` is what a call of `name` on an object of class `cls` means: the
nearest class that has a candidate selects it. -/
structure Resolves (cs : List Outline) (cls name : String) (args : List Ty) (owner : Outline)
    (s : Signature) : Prop where
  nearest : Nearest cs (fun c => ∃ t, c.Candidate cs name args t) cls owner
  selects : owner.Selects cs name args s

/-- The field `name` of an object of class `cls` has type `ty` and comes from class `owner`. -/
structure FieldOf (cs : List Outline) (cls name : String) (owner : Outline) (ty : Ty) : Prop where
  nearest : Nearest cs (fun c => name ∈ c.fields.map Prod.fst) cls owner
  field : (name, ty) ∈ owner.fields

/-! ### Classes that stand together

What the rules ensure of the classes of a program, as far as the relations above need it. -/

/-- Names, fields and keys are not given twice, and classes refer to classes. -/
structure Hierarchy (cs : List Outline) : Prop where
  names : (cs.map Outline.name).Nodup
  parents : ∀ c ∈ cs, ∀ q, c.parent = some q → q ∈ cs.map Outline.name
  fields : ∀ c ∈ cs, (c.fields.map Prod.fst).Nodup
  types : ∀ c ∈ cs, ∀ f ∈ c.fields, f.2.Known (cs.map Outline.name)
  keys : ∀ c ∈ cs, ∀ s t, c.Offers s → c.Offers t → s.sameKey t = true → s = t

section

variable {cs : List Outline} {P : Outline → Prop} {c d : Outline} {cls name : String}
  {args : List Ty} {s t : Signature} {a b : Ty}

theorem Hierarchy.nil : Hierarchy [] :=
  ⟨List.nodup_nil, List.forall_mem_nil _, List.forall_mem_nil _, List.forall_mem_nil _,
    List.forall_mem_nil _⟩

theorem Hierarchy.eq_of_name (h : Hierarchy cs) (hc : c ∈ cs) (hd : d ∈ cs)
    (hn : c.name = d.name) : c = d :=
  List.inj_on_of_nodup_map h.names hc hd hn

namespace Nearest

theorem mem (h : Nearest cs P cls c) : c ∈ cs := by
  induction h with
  | here hc => exact hc
  | up _ _ _ _ _ ih => exact ih

theorem holds (h : Nearest cs P cls c) : P c := by
  induction h with
  | here _ _ hP => exact hP
  | up _ _ _ _ _ ih => exact ih

theorem unique (hcs : Hierarchy cs) (h : Nearest cs P cls c) (h' : Nearest cs P cls d) : c = d := by
  induction h with
  | here hc hname hP =>
    cases h' with
    | here hd hname' _ => exact hcs.eq_of_name hc hd (hname.trans hname'.symm)
    | up hd hname' hP' _ _ =>
      rw [hcs.eq_of_name hc hd (hname.trans hname'.symm)] at hP
      exact absurd hP hP'
  | up hc hname hP hq _ ih =>
    cases h' with
    | here hd hname' hP' =>
      rw [hcs.eq_of_name hc hd (hname.trans hname'.symm)] at hP
      exact absurd hP' hP
    | up hd hname' _ hq' h' =>
      rw [hcs.eq_of_name hc hd (hname.trans hname'.symm), hq'] at hq
      cases hq
      exact ih h'

/-- If the nearest class with `P` has the narrower property `Q`, it is the nearest with that. -/
theorem narrow {Q : Outline → Prop} (hQ : ∀ d, Q d → P d) (h : Nearest cs P cls c) (hc : Q c) :
    Nearest cs Q cls c := by
  induction h with
  | here hd hname _ => exact .here hd hname hc
  | up hd hname hP hq _ ih => exact .up hd hname (fun hQd => hP (hQ _ hQd)) hq (ih hc)

end Nearest

/-- The arguments of a candidate with just their types fit. -/
theorem Outline.Selects.candidate (h : c.Selects cs name args s) : c.Candidate cs name args s := by
  cases h with
  | exact h hname hargs =>
    refine ⟨h, hname, ?_⟩
    rw [hargs]
    exact List.forall₂_same.mpr fun _ _ => .refl
  | only h _ => exact h

theorem Outline.Selects.unique (hcs : Hierarchy cs) (hc : c ∈ cs) (h : c.Selects cs name args s)
    (h' : c.Selects cs name args t) : s = t := by
  cases h with
  | only _ honly => exact (honly t h'.candidate).symm
  | exact ho hname hargs =>
    cases h' with
    | only _ honly => exact honly s (Outline.Selects.exact ho hname hargs).candidate
    | exact ho' hname' hargs' =>
      apply hcs.keys c hc s t ho ho'
      rw [Signature.sameKey_iff]
      exact ⟨hname.trans hname'.symm, hargs.trans hargs'.symm⟩

theorem Resolves.unique (hcs : Hierarchy cs) (h : Resolves cs cls name args c s)
    (h' : Resolves cs cls name args d t) : c = d ∧ s = t := by
  obtain rfl := h.nearest.unique hcs h'.nearest
  exact ⟨rfl, h.selects.unique hcs h.nearest.mem h'.selects⟩

theorem Hierarchy.eq_of_field (h : Hierarchy cs) (hc : c ∈ cs) (ha : (name, a) ∈ c.fields)
    (hb : (name, b) ∈ c.fields) : a = b := by
  have := List.inj_on_of_nodup_map (h.fields c hc) ha hb rfl
  exact (Prod.mk.inj this).2

theorem FieldOf.unique (hcs : Hierarchy cs) (h : FieldOf cs cls name c a)
    (h' : FieldOf cs cls name d b) : c = d ∧ a = b := by
  obtain rfl := h.nearest.unique hcs h'.nearest
  exact ⟨rfl, hcs.eq_of_field h.nearest.mem h.field h'.field⟩

theorem FieldOf.known (hcs : Hierarchy cs) (h : FieldOf cs cls name c a) :
    a.Known (cs.map Outline.name) :=
  hcs.types c h.nearest.mem _ h.field

end

end ClassLang
