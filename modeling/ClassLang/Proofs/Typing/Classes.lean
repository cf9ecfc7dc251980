import ClassLang.Proofs.Tree.Bare
import ClassLang.Proofs.Typing.Rules
import Mathlib.Data.List.Pairwise

/-!
# What well-formed declarations ensure

Classes whose declarations keep to the rules stand together as the rules for expressions need it:
names, fields and keys are not given twice, and classes refer to classes
(`ClassDecl.Formed.hierarchy`). What a class declares does not depend on its slots
(`ClassDecl.formed_iff_of_bare`).
-/

namespace ClassLang

variable {earlier : List Outline} {c c' : ClassDecl} {m n : Member} {names : List String}
  {s : Signature} {name cls : String} {parent : Option String} {ms : List Member}

/-! ### Members by what they declare -/

namespace Outline

@[simp] theorem name_ofMembers : (ofMembers name parent ms).name = name := rfl

@[simp] theorem names_append_ofMembers :
    (earlier ++ [ofMembers name parent ms]).map Outline.name =
      earlier.map Outline.name ++ [name] := by
  simp

end Outline

namespace Member

theorem Apart.symm (h : m.Apart n) : n.Apart m :=
  ⟨fun x hn hm => h.1 x hm hn, fun k hn hm => h.2 k hm hn⟩

theorem key?_of_signature? (h : m.signature? cls = some s) : m.key? = some (s.name, s.params) := by
  cases m with
  | field => cases h
  | method ret f r =>
    obtain rfl := Option.some.inj h
    rfl
  | constructor r =>
    obtain rfl := Option.some.inj h
    rfl

theorem fieldName?_eq (m : Member) : m.fieldName? = m.field?.map Prod.fst := by
  cases m <;> rfl

/-- Members that are apart, and still have one key, are one member. -/
theorem eq_of_key (hms : ms.Pairwise Apart) (hm : m ∈ ms) (hn : n ∈ ms) {k : String × List Ty}
    (hkm : m.key? = some k) (hkn : n.key? = some k) : m = n := by
  by_contra hne
  have : Std.Symm Apart := ⟨fun _ _ h => h.symm⟩
  exact (hms.forall hm hn hne).2 k hkm hkn

/-- Only a constructor can have the key of the constructor that a class starts out with. -/
theorem signature?_of_key (hm : m.SparesInitial) (hk : m.key? = some (constructorName, [])) :
    m.signature? cls = some (.ofConstructor cls []) := by
  cases m with
  | field => cases hk
  | method ret f r => exact absurd (Option.some.inj hk) hm
  | constructor r =>
    have hparams : r.paramTypes = [] := (Prod.mk.inj (Option.some.inj hk)).2
    rw [signature?, hparams]

end Member

/-! ### Classes that stand together -/

section

variable {names' : List String} {τ : Ty}

theorem Ty.Known.mono (h : τ.Known names) (hsub : names ⊆ names') : τ.Known names' :=
  fun name hname => hsub (h name hname)

theorem Ty.Storable.mono (h : τ.Storable names) (hsub : names ⊆ names') : τ.Storable names' :=
  ⟨h.1, h.2.mono hsub⟩

theorem Member.Typed.mono (h : m.Typed names) (hsub : names ⊆ names') : m.Typed names' := by
  cases h with
  | field hτ => exact .field (hτ.mono hsub)
  | method hret h => exact .method (hret.mono hsub) fun τ hτ => (h τ hτ).mono hsub
  | constructor h => exact .constructor fun τ hτ => (h τ hτ).mono hsub

end

namespace ClassDecl.Formed

theorem nodup_fields (h : c.Formed earlier) : (c.outline.fields.map Prod.fst).Nodup := by
  have hfields : c.outline.fields.map Prod.fst = c.members.filterMap Member.fieldName? := by
    rw [ClassDecl.outline, Outline.ofMembers, List.map_filterMap]
    exact List.filterMap_congr fun m _ => (m.fieldName?_eq).symm
  rw [hfields]
  refine List.Pairwise.filterMap _ (fun m n hmn x hx y hy hxy => ?_) h.apart
  exact hmn.1 x hx (hxy ▸ hy)

theorem known_fields (h : c.Formed earlier) {f : String × Ty} (hf : f ∈ c.outline.fields) :
    f.2.Known ((earlier ++ [c.outline]).map Outline.name) := by
  obtain ⟨m, hm, hmf⟩ := List.mem_filterMap.mp hf
  cases m with
  | field sp ty x =>
    obtain rfl := Option.some.inj hmf
    cases h.typed _ hm with
    | field hty => exact hty.2
  | method => cases hmf
  | constructor => cases hmf

theorem eq_of_sameKey (h : c.Formed earlier) {s t : Signature} (hs : c.outline.Offers s)
    (ht : c.outline.Offers t) (hk : s.sameKey t = true) : s = t := by
  rw [Signature.sameKey_iff] at hk
  -- of the members only a constructor can have the initial constructor's key
  have hinitial : ∀ {u : Signature}, u ∈ c.outline.signatures → u.name = constructorName →
      u.params = [] → u = .ofConstructor c.name [] := by
    intro u hu hname hparams
    obtain ⟨m, hm, hmu⟩ := List.mem_filterMap.mp hu
    have hkey := Member.key?_of_signature? hmu
    rw [hname, hparams] at hkey
    rw [Member.signature?_of_key (h.initial m hm) hkey] at hmu
    exact (Option.some.inj hmu).symm
  cases hs with
  | initial =>
    cases ht with
    | initial => rfl
    | declared ht => exact (hinitial ht hk.1.symm hk.2.symm).symm
  | declared hs =>
    cases ht with
    | initial => exact hinitial hs hk.1 hk.2
    | declared ht =>
      obtain ⟨m, hm, hms⟩ := List.mem_filterMap.mp hs
      obtain ⟨n, hn, hnt⟩ := List.mem_filterMap.mp ht
      have hkm := Member.key?_of_signature? hms
      have hkn := Member.key?_of_signature? hnt
      rw [← hk.1, ← hk.2] at hkn
      rw [Member.eq_of_key h.apart hm hn hkm hkn, hnt] at hms
      exact (Option.some.inj hms).symm

/-- A class that is well formed can be added to those before it. -/
theorem hierarchy (h : c.Formed earlier) (hearlier : Hierarchy earlier) :
    Hierarchy (earlier ++ [c.outline]) := by
  have hsub : earlier.map Outline.name ⊆ (earlier ++ [c.outline]).map Outline.name := by simp
  have hlast : ∀ {P : Outline → Prop}, (∀ d ∈ earlier, P d) → P c.outline →
      ∀ d ∈ earlier ++ [c.outline], P d := by
    intro P hP hc d hd
    rcases List.mem_append.mp hd with hd | hd
    · exact hP d hd
    · rw [List.mem_singleton.mp hd]
      exact hc
  constructor
  · rw [List.map_append, List.nodup_append]
    refine ⟨hearlier.names, List.nodup_singleton _, fun a ha b hb => ?_⟩
    rw [List.mem_singleton.mp hb]
    rintro rfl
    exact h.fresh ha
  · exact hlast (fun d hd q hq => hsub (hearlier.parents d hd q hq)) h.parent
  · exact hlast hearlier.fields h.nodup_fields
  · exact hlast (fun d hd f hf => (hearlier.types d hd f hf).mono hsub)
      fun f hf => h.known_fields hf
  · exact hlast hearlier.keys fun s t hs ht hk => h.eq_of_sameKey hs ht hk

end ClassDecl.Formed

/-! ### Slots do not count -/

namespace Member

@[simp] theorem field?_bare (m : Member) : m.bare.field? = m.field? := by cases m <;> rfl

@[simp] theorem signature?_bare (m : Member) : m.bare.signature? cls = m.signature? cls := by
  cases m <;> rfl

@[simp] theorem key?_bare (m : Member) : m.bare.key? = m.key? := by cases m <;> rfl

theorem apart_bare_iff : m.bare.Apart n.bare ↔ m.Apart n := by
  simp [Apart, fieldName?_eq]

theorem sparesInitial_bare_iff : m.bare.SparesInitial ↔ m.SparesInitial := by
  cases m <;> rfl

theorem typed_bare_iff : m.bare.Typed names ↔ m.Typed names := by
  cases m with
  | field => rfl
  | method ret f r =>
    constructor
    · intro h
      cases h with
      | method hret h => exact .method hret h
    · intro h
      cases h with
      | method hret h => exact .method hret h
  | constructor r =>
    constructor
    · intro h
      cases h with
      | constructor h => exact .constructor h
    · intro h
      cases h with
      | constructor h => exact .constructor h

end Member

namespace ClassDecl

theorem outline_bare (c : ClassDecl) : c.bare.outline = c.outline := by
  have hfields : Member.field? ∘ Member.bare = Member.field? := funext Member.field?_bare
  have hsignatures : Member.signature? c.name ∘ Member.bare = Member.signature? c.name :=
    funext Member.signature?_bare
  simp only [outline, bare, Outline.ofMembers, List.filterMap_map, hfields, hsignatures]

theorem formed_bare_iff : c.bare.Formed earlier ↔ c.Formed earlier := by
  have hpair : c.bare.members.Pairwise Member.Apart ↔ c.members.Pairwise Member.Apart := by
    rw [bare, List.pairwise_map]
    simp only [Member.apart_bare_iff]
  constructor
  · rintro ⟨hfresh, hparent, htyped, hapart, hinitial⟩
    rw [outline_bare] at hparent htyped
    refine ⟨hfresh, hparent, fun m hm => ?_, hpair.mp hapart, fun m hm => ?_⟩
    · exact Member.typed_bare_iff.mp (htyped _ (List.mem_map_of_mem hm))
    · exact Member.sparesInitial_bare_iff.mp (hinitial _ (List.mem_map_of_mem hm))
  · rintro ⟨hfresh, hparent, htyped, hapart, hinitial⟩
    rw [← outline_bare] at hparent htyped
    refine ⟨hfresh, hparent, List.forall_mem_map.mpr fun m hm => ?_, hpair.mpr hapart,
      List.forall_mem_map.mpr fun m hm => ?_⟩
    · exact Member.typed_bare_iff.mpr (htyped m hm)
    · exact Member.sparesInitial_bare_iff.mpr (hinitial m hm)

theorem formed_iff_of_bare (h : c'.bare = c.bare) : c'.Formed earlier ↔ c.Formed earlier := by
  rw [← formed_bare_iff, h, formed_bare_iff]

theorem outline_eq_of_bare (h : c'.bare = c.bare) : c'.outline = c.outline := by
  rw [← outline_bare, h, outline_bare]

end ClassDecl

theorem Program.outlines_bare (p : Program) : p.bare.outlines = p.outlines := by
  simp only [outlines, bare, List.map_map, Function.comp_def, ClassDecl.outline_bare]

/-- Programs that say the same declare the same. -/
theorem Program.outlines_eq_of_bare {p p' : Program} (h : p'.bare = p.bare) :
    p'.outlines = p.outlines := by
  rw [← outlines_bare, h, outlines_bare]

theorem Program.names_outlines (p : Program) :
    p.outlines.map Outline.name = p.classes.map ClassDecl.name := by
  rw [outlines, List.map_map]
  rfl

end ClassLang
