import ClassLang.Proofs.Compile
import ClassLang.Proofs.Typing.Determined

/-!
# Overloads and their symbols

A symbol is made from bytes: the name of a method and the names of its parameter types, with a
separator between them. The separator is in no UTF-8 text, so the parts can be read back from the
bytes (`Signature.hashInput_eq_iff`), and the name and the hash from the symbol
(`Signature.symbol_eq_iff`).

Overloads are told apart by their types, symbols by the names of types. These differ: a program may
declare a class `int`, and then a method that takes a number and one that takes an object of that
class are two overloads with one symbol. Nothing else makes symbols meet, collisions of the hash
apart (`Program.symbols_differ`).
-/

namespace ClassLang

/-! ### Texts as bytes -/

theorem utf8_injective : Function.Injective utf8 := by
  intro s u h
  have hbytes : s.toList.utf8Encode = u.toList.utf8Encode := congrArg List.toByteArray h
  rw [String.utf8Encode_toList, String.utf8Encode_toList] at hbytes
  exact String.toByteArray_inj.mp hbytes

/-- The highest byte is the first of four. -/
theorem toNat_lt_of_mem_utf8EncodeChar {c : Char} {b : UInt8} (h : b ∈ String.utf8EncodeChar c) :
    b.toNat < 248 := by
  have hofNat : ∀ n < 248, (UInt8.ofNat n).toNat < 248 := fun n hn => by
    rw [UInt8.toNat_ofNat']
    omega
  unfold String.utf8EncodeChar at h
  simp only at h
  split_ifs at h
  · obtain rfl := List.mem_singleton.mp h
    exact hofNat _ (by omega)
  all_goals
    simp only [List.mem_cons, List.not_mem_nil, or_false] at h
    rcases h with rfl | h
    · exact hofNat _ (by omega)
  · exact h ▸ hofNat _ (by omega)
  · rcases h with rfl | rfl <;> exact hofNat _ (by omega)
  · rcases h with rfl | rfl | rfl <;> exact hofNat _ (by omega)

theorem separator_notMem_utf8 (s : String) : Signature.separator ∉ utf8 s := by
  intro h
  obtain ⟨c, -, hc⟩ := List.mem_flatMap.mp h
  exact absurd (toNat_lt_of_mem_utf8EncodeChar hc) (by decide)

/-! ### Numbers as digits -/

theorem length_hex16 (n : UInt64) : (hex16 n).toList.length = 16 := by
  simp [hex16]

theorem hexDigit_inj {n m : UInt64} (h : hexDigit n = hexDigit m) : n &&& 15 = m &&& 15 := by
  have hlt : ∀ k : UInt64, (k &&& 15).toNat < 16 := fun k => by
    rw [UInt64.toNat_and]
    exact Nat.lt_of_le_of_lt Nat.and_le_right (by decide)
  have hdigit : ∀ a < 16, ∀ b < 16, "0123456789abcdef".toList.getD a '0' =
      "0123456789abcdef".toList.getD b '0' → a = b := by
    decide
  exact UInt64.toNat_inj.mp (hdigit _ (hlt n) _ (hlt m) h)

/-- Bit `i` of a number is bit `i % 4` of its digit `i / 4`. -/
theorem testBit_digit (n : UInt64) {i : ℕ} (hi : i < 64) :
    ((n >>> (4 * (i / 4)).toUInt64) &&& 15).toNat.testBit (i % 4) = n.toNat.testBit i := by
  have hshift : (4 * (i / 4)).toUInt64.toNat % 64 = 4 * (i / 4) := by
    rw [Nat.toUInt64_eq, UInt64.toNat_ofNat']
    omega
  have hmask : (15 : UInt64).toNat = 2 ^ 4 - 1 := rfl
  have hlt : i % 4 < 4 := Nat.mod_lt _ (by decide)
  rw [UInt64.toNat_and, UInt64.toNat_shiftRight, hshift, hmask, Nat.testBit_and,
    Nat.testBit_shiftRight, Nat.div_add_mod, Nat.testBit_two_pow_sub_one, decide_eq_true hlt,
    Bool.and_true]

theorem hex16_injective : Function.Injective hex16 := by
  intro n m h
  have hdigit : ∀ i : ℕ, i < 16 →
      (n >>> (4 * i).toUInt64) &&& 15 = (m >>> (4 * i).toUInt64) &&& 15 := by
    intro i hi
    have hmap := List.map_inj_left.mp (String.ofList_inj.mp h) i
    exact hexDigit_inj (hmap (by simpa using hi))
  refine UInt64.toNat_inj.mp (Nat.eq_of_testBit_eq fun i => ?_)
  by_cases hi : i < 64
  · rw [← testBit_digit n hi, ← testBit_digit m hi, hdigit (i / 4) (by omega)]
  · have hpow : 2 ^ 64 ≤ 2 ^ i := Nat.pow_le_pow_right (by decide) (by omega)
    rw [Nat.testBit_lt_two_pow (n.toNat_lt.trans_le hpow),
      Nat.testBit_lt_two_pow (m.toNat_lt.trans_le hpow)]

namespace Signature

variable {s u : Signature}

/-! ### What the bytes and the symbol say -/

/-- The signatures read alike: name by name, whatever the types are. -/
def SpelledAs (s u : Signature) : Prop :=
  s.name = u.name ∧ s.params.map Ty.name = u.params.map Ty.name

theorem hashInput_eq_intercalate (s : Signature) :
    s.hashInput = [separator].intercalate ((s.name :: s.params.map Ty.name).map utf8) := by
  obtain ⟨name, params, ret⟩ := s
  unfold hashInput
  induction params generalizing name with
  | nil => simp
  | cons t params ih =>
    have ih := ih t.name
    simp only [List.map_cons] at ih ⊢
    rw [List.flatMap_cons, List.intercalate_cons_cons, ← ih]
    simp

/-- **The bytes of a signature are those of another that reads alike**, and of no other. -/
theorem hashInput_eq_iff : s.hashInput = u.hashInput ↔ s.SpelledAs u := by
  have hread : ∀ v : Signature, v.hashInput.splitOn separator =
      (v.name :: v.params.map Ty.name).map utf8 := by
    intro v
    rw [hashInput_eq_intercalate]
    refine List.splitOn_intercalate _ (fun l hl => ?_) (by simp)
    obtain ⟨a, -, rfl⟩ := List.mem_map.mp hl
    exact separator_notMem_utf8 a
  constructor
  · intro h
    have hparts := congrArg (List.splitOn separator) h
    rw [hread, hread] at hparts
    exact List.cons.inj (List.map_injective_iff.mpr utf8_injective hparts)
  · rintro ⟨hname, hparams⟩
    rw [hashInput_eq_intercalate, hashInput_eq_intercalate, hname, hparams]

/-- **A symbol says the name and the hash.** -/
theorem symbol_eq_iff : s.symbol = u.symbol ↔ s.name = u.name ∧ s.hash = u.hash := by
  constructor
  · intro h
    have hchars := congrArg String.toList h
    simp only [symbol, String.toList_append] at hchars
    -- the digits are the last sixteen characters
    obtain ⟨hhead, hdigits⟩ := List.append_inj' hchars (by rw [length_hex16, length_hex16])
    refine ⟨?_, hex16_injective (String.toList_inj.mp hdigits)⟩
    exact String.toList_inj.mp (List.append_cancel_right hhead)
  · rintro ⟨hname, hhash⟩
    rw [symbol, symbol, hname, hhash]

theorem SpelledAs.symbol_eq (h : s.SpelledAs u) : s.symbol = u.symbol := by
  refine symbol_eq_iff.mpr ⟨h.1, ?_⟩
  rw [hash, hash, hashInput_eq_iff.mpr h]

end Signature

/-! ### Types of one name -/

/-- Types of one name are one type, or one of them is a class with the name of the other. -/
theorem Ty.exists_class_of_name_eq {τ σ : Ty} (h : τ.name = σ.name) (hne : τ ≠ σ) (hτ : τ ≠ .void)
    (hσ : σ ≠ .void) : ∃ name, (τ = .cls name ∨ σ = .cls name) ∧ (name = "int" ∨ name = "bool") := by
  cases τ <;> cases σ <;> simp_all [Ty.name]

theorem Ty.exists_ne_of_map_name_eq : ∀ {l l' : List Ty}, l.map Ty.name = l'.map Ty.name → l ≠ l' →
    ∃ τ ∈ l, ∃ σ ∈ l', τ.name = σ.name ∧ τ ≠ σ
  | [], [], _, hne => absurd rfl hne
  | τ :: l, σ :: l', h, hne => by
    obtain ⟨hname, hrest⟩ := List.cons.inj h
    by_cases heq : τ = σ
    · have hne : l ≠ l' := fun hl => hne (heq ▸ hl ▸ rfl)
      obtain ⟨τ', hτ', σ', hσ', h'⟩ := exists_ne_of_map_name_eq hrest hne
      exact ⟨τ', List.mem_cons_of_mem _ hτ', σ', List.mem_cons_of_mem _ hσ', h'⟩
    · exact ⟨τ, List.mem_cons_self .., σ, List.mem_cons_self .., hname, heq⟩

theorem Ty.map_ofName_name {l : List Ty}
    (h : ∀ c, .cls c ∈ l → c ≠ "int" ∧ c ≠ "bool" ∧ c ≠ "void") :
    (l.map Ty.name).map Ty.ofName = l := by
  rw [List.map_map]
  refine (List.map_congr_left fun τ hτ => ?_).trans (List.map_id l)
  exact Ty.ofName_name fun c hc => h c (hc ▸ hτ)

/-! ### What tells a signature -/

namespace Signature

/-- **The bytes tell the name and the names of the parameter types**, so they tell the key of a
signature that takes no class called as a built-in type. They are the name and the names of the types
in UTF-8, with the byte 0xFF between them; the hash is taken of them, and the symbol tells the name
and the hash. -/
theorem hashInput_tells_key (s u : Signature) :
    s.hashInput = [0xFF].intercalate ((s.name :: s.params.map Ty.name).map utf8) ∧
    s.hash = xxh64 0 s.hashInput ∧
    (s.hashInput = u.hashInput ↔
      s.name = u.name ∧ s.params.map Ty.name = u.params.map Ty.name) ∧
    ((∀ c, .cls c ∈ s.params ++ u.params → c ≠ "int" ∧ c ≠ "bool" ∧ c ≠ "void") →
      (s.hashInput = u.hashInput ↔ s.sameKey u = true)) ∧
    (s.symbol = u.symbol ↔ s.name = u.name ∧ s.hash = u.hash) := by
  refine ⟨s.hashInput_eq_intercalate, rfl, hashInput_eq_iff, fun h => ?_, symbol_eq_iff⟩
  rw [hashInput_eq_iff, sameKey_iff]
  refine and_congr_right fun _ => ⟨fun hnames => ?_, congrArg (List.map Ty.name)⟩
  rw [← Ty.map_ofName_name fun c hc => h c (List.mem_append_left _ hc), hnames,
    Ty.map_ofName_name fun c hc => h c (List.mem_append_right _ hc)]

/-- The name and the types run together in another way, and the return type does not count. -/
theorem hashInput_of_accented :
    let s : Signature := ⟨"f_0é", [.cls "Å", .int], .void⟩
    let u : Signature := ⟨"f_0é", [.cls "Å", .int], .bool⟩
    let v : Signature := ⟨"f_0", [.cls "éÅ", .int], .void⟩
    (∀ c, .cls c ∈ s.params ++ (u.params ++ v.params) → c ≠ "int" ∧ c ≠ "bool" ∧ c ≠ "void") ∧
    s.hash = xxh64 0
      [0x66, 0x5F, 0x30, 0xC3, 0xA9, 0xFF, 0xC3, 0x85, 0xFF, 0x69, 0x6E, 0x74] ∧
    s.hashInput = u.hashInput ∧ s.hash = u.hash ∧ s.symbol = u.symbol ∧
    s.hashInput ≠ v.hashInput := by
  intro s u v
  have h : ∀ c, .cls c ∈ s.params ++ (u.params ++ v.params) →
      c ≠ "int" ∧ c ≠ "bool" ∧ c ≠ "void" := by
    simp [s, u, v]
  obtain ⟨hbytes, hhash, -, hkey, hsymbol⟩ := hashInput_tells_key s u
  have hsu : s.hashInput = u.hashInput := by
    refine (hkey fun c hc => h c ?_).mpr (by decide)
    rw [← List.append_assoc]
    exact List.mem_append_left _ hc
  have heq : s.hash = u.hash := by
    rw [hhash, hsu, ← (hashInput_tells_key u s).2.1]
  refine ⟨h, ?_, hsu, heq, hsymbol.mpr ⟨rfl, heq⟩, fun hsv => ?_⟩
  · rw [hhash, hbytes]
    exact congrArg (xxh64 0) (by decide +kernel)
  · exact absurd ((hashInput_tells_key s v).2.2.1.mp hsv).1 (by decide)

end Signature

/-! ### The overloads of a class -/

namespace Member

variable {m n : Member} {s u : Signature} {cls : String} {names : List String}

/-- The signature that a method or constructor was found to have, whose symbol it is written with. -/
def recorded? : Member → Option Signature
  | .field .. => none
  | .method _ _ r => r.signature.get?
  | .constructor r => r.signature.get?

theorem Ok.recorded?_eq {classes : List Outline} (h : m.Ok .annotated classes cls) :
    m.recorded? = m.signature? cls := by
  cases h with
  | field => rfl
  | method hs _ => exact congrArg Slot.get? hs
  | constructor hs _ => exact congrArg Slot.get? hs

theorem Typed.storable_params (h : m.Typed names) (hs : m.signature? cls = some s) :
    ∀ τ ∈ s.params, τ.Storable names := by
  cases h with
  | field => cases hs
  | method _ h =>
    obtain rfl := Option.some.inj hs
    exact h
  | constructor h =>
    obtain rfl := Option.some.inj hs
    exact h

/-- Of two members that read alike one takes an object of a class that is called as a built-in
type. -/
theorem Apart.exists_class_of_spelledAs (h : m.Apart n) (hm : m.Typed names) (hn : n.Typed names)
    (hs : m.signature? cls = some s) (hu : n.signature? cls = some u) (hsu : s.SpelledAs u) :
    ∃ name ∈ names, name = "int" ∨ name = "bool" := by
  have hne : s.params ≠ u.params := by
    intro hparams
    refine h.2 _ (key?_of_signature? hs) ?_
    rw [key?_of_signature? hu, hsu.1, hparams]
  obtain ⟨τ, hτ, σ, hσ, hname, hne⟩ := Ty.exists_ne_of_map_name_eq hsu.2 hne
  obtain ⟨hvoid, hknown⟩ := hm.storable_params hs τ hτ
  obtain ⟨hvoid', hknown'⟩ := hn.storable_params hu σ hσ
  obtain ⟨name, hcls, hbuiltin⟩ := Ty.exists_class_of_name_eq hname hne hvoid hvoid'
  exact ⟨name, hcls.elim (hknown name) (hknown' name), hbuiltin⟩

end Member

namespace Program

variable {p q : Program} {t : ClassTable} {c : ClassDecl}

/-- **When the overloads of a class have symbols of their own.** Their symbols are made from the same
bytes just if they read alike; that takes a class called `int` or `bool`. If the hash does not
collide on their bytes, their symbols are equal in this case only. -/
theorem symbols_differ (h : p.analyze = .ok t q) (hc : c ∈ q.classes) :
    c.members.map Member.recorded? = c.members.map (Member.signature? c.name) ∧
    (c.members.filterMap Member.recorded?).Pairwise fun s u =>
      (s.hashInput = u.hashInput ↔ s.SpelledAs u) ∧
      (s.SpelledAs u → ∃ d ∈ q.classes, d.name = "int" ∨ d.name = "bool") ∧
      ((s.hash = u.hash → s.hashInput = u.hashInput) → (s.symbol = u.symbol ↔ s.SpelledAs u)) := by
  obtain ⟨-, hok, -, -, -⟩ := of_analyze_ok h
  obtain ⟨l, r, hsplit⟩ := List.append_of_mem hc
  obtain ⟨hcok, -, -⟩ := hok.split hsplit
  have hrecorded : ∀ m ∈ c.members, m.recorded? = m.signature? c.name := fun m hm =>
    (hcok.bodies m hm).recorded?_eq
  refine ⟨List.map_congr_left hrecorded, ?_⟩
  rw [List.filterMap_congr hrecorded, List.pairwise_filterMap]
  refine hcok.apart.imp_of_mem fun {m n} hm hn hmn s hs u hu => ⟨Signature.hashInput_eq_iff, ?_, ?_⟩
  · intro hsu
    obtain ⟨name, hname, hbuiltin⟩ :=
      hmn.exists_class_of_spelledAs (hcok.typed m hm) (hcok.typed n hn) hs hu hsu
    obtain ⟨o, ho, rfl⟩ := List.mem_map.mp hname
    obtain ⟨d, hd, rfl⟩ := List.mem_map.mp (outlines_of_split hsplit ho)
    exact ⟨d, hd, hbuiltin⟩
  · intro hcollide
    refine ⟨fun hsymbol => ?_, fun hsu => hsu.symbol_eq⟩
    exact Signature.hashInput_eq_iff.mp (hcollide (Signature.symbol_eq_iff.mp hsymbol).2)

/-- Overloads of one name, and a constructor:

    class A { }
    class B { void f(int x) { } int f(A x) { return 1; } cons(bool x) { } } -/
def overloads : Program := ⟨[
  ⟨.unknown, "A", none, []⟩,
  ⟨.unknown, "B", none, [
    .method .void "f" ⟨.unknown, [⟨.int, "x"⟩], [], .empty⟩,
    .method .int "f" ⟨.unknown, [⟨.cls "A", "x"⟩],
      [.ret .unknown (some (.number .unset 1))], .empty⟩,
    .constructor ⟨.unknown, [⟨.bool, "x"⟩], [], .empty⟩]⟩]⟩

/-- No class of the program is called `int` or `bool`, and the hash tells the overloads apart. -/
theorem overloads_symbols_differ : ∃ t q c, overloads.analyze = .ok t q ∧ c ∈ q.classes ∧
    c.members.filterMap Member.recorded? =
      [⟨"f", [.int], .void⟩, ⟨"f", [.cls "A"], .int⟩, .ofConstructor "B" [.bool]] ∧
    (c.members.filterMap Member.recorded?).Pairwise fun s u =>
      s.hashInput ≠ u.hashInput ∧ s.symbol ≠ u.symbol := by
  obtain ⟨t, h⟩ : ∃ t, overloads.analyze = .ok t overloads.analyze.state :=
    Outcome.eq_ok_of_isOk (by decide +kernel)
  have hnames : ∀ d ∈ overloads.analyze.state.classes, ¬ (d.name = "int" ∨ d.name = "bool") := by
    decide +kernel
  have hmem : [⟨"f", [.int], .void⟩, ⟨"f", [.cls "A"], .int⟩, .ofConstructor "B" [.bool]] ∈
      overloads.analyze.state.classes.map fun c => c.members.filterMap Member.recorded? := by
    decide +kernel
  obtain ⟨c, hc, hrecorded⟩ := List.mem_map.mp hmem
  have hhash : (c.members.filterMap Member.recorded?).Pairwise fun s u => s.hash ≠ u.hash := by
    rw [hrecorded]
    decide +kernel
  refine ⟨t, _, c, h, hc, hrecorded, ((symbols_differ h hc).2.and hhash).imp ?_⟩
  rintro s u ⟨⟨hinput, hclass, hsymbol⟩, hne⟩
  have hsu : ¬ s.SpelledAs u := fun hsu =>
    let ⟨d, hd, hname⟩ := hclass hsu
    hnames d hd hname
  exact ⟨mt hinput.mp hsu, mt (hsymbol fun heq => absurd heq hne).mp hsu⟩

/-- Overloads that differ in a built-in type and a class of its name:

    class int { }
    class A { void f(int x) { } void f(class int x) { } } -/
def disguised : Program := ⟨[
  ⟨.unknown, "int", none, []⟩,
  ⟨.unknown, "A", none, [
    .method .void "f" ⟨.unknown, [⟨.int, "x"⟩], [], .empty⟩,
    .method .void "f" ⟨.unknown, [⟨.cls "int", "x"⟩], [], .empty⟩]⟩]⟩

/-- The program is accepted, and its two overloads are written with one symbol. -/
theorem disguised_symbols_meet : ∃ t q c s u, disguised.analyze = .ok t q ∧ c ∈ q.classes ∧
    c.members.filterMap Member.recorded? = [s, u] ∧ s.sameKey u = false ∧
    s.hashInput = u.hashInput ∧ s.symbol = u.symbol := by
  obtain ⟨t, h⟩ : ∃ t, disguised.analyze = .ok t disguised.analyze.state :=
    Outcome.eq_ok_of_isOk (by decide +kernel)
  have hmem : [⟨"f", [.int], .void⟩, ⟨"f", [.cls "int"], .void⟩] ∈
      disguised.analyze.state.classes.map fun c => c.members.filterMap Member.recorded? := by
    decide +kernel
  obtain ⟨c, hc, hrecorded⟩ := List.mem_map.mp hmem
  have hsu : Signature.SpelledAs ⟨"f", [.int], .void⟩ ⟨"f", [.cls "int"], .void⟩ := ⟨rfl, rfl⟩
  exact ⟨t, _, c, _, _, h, hc, hrecorded, by decide, Signature.hashInput_eq_iff.mpr hsu,
    hsu.symbol_eq⟩

end Program

end ClassLang
