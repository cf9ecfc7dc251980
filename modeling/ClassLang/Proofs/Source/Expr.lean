import ClassLang.Proofs.Source.Text
import ClassLang.Proofs.Tree.Plain
import Mathlib

/-!
# The source text of an expression

Operators stand in brackets. Every other expression begins with an atom: a number, a word, or a name
after the object it is asked of. The atom and the character after it say what kind of expression it
is (`Expr.Kind.of`), and the expression can be told from its text as long as what follows cannot
continue it (`Expr.told`).
-/

namespace ClassLang

/-! ### Expressions as a program can contain them -/

/-- The name of an object, or the receiver's. -/
def isObject (s : String) : Bool := s == receiverName || isName s

mutual

/-- Every name in the expression is one that a program can contain. -/
def Expr.spelled : Expr → Bool
  | .number .. | .bool .. | .this _ => true
  | .var _ object name _ _ => object.all isObject && isName name
  | .binary _ _ l r => l.spelled && r.spelled
  | .unary _ _ x => x.spelled
  | .call _ object name args _ _ => object.all isObject && isName name && Expr.allSpelled args
  | .create _ cls args _ => isName cls && Expr.allSpelled args

def Expr.allSpelled : List Expr → Bool
  | [] => true
  | e :: rest => e.spelled && Expr.allSpelled rest

end

theorem Expr.allSpelled_iff {es : List Expr} :
    Expr.allSpelled es = true ↔ ∀ e ∈ es, e.spelled = true := by
  induction es with
  | nil => simp [Expr.allSpelled]
  | cons e es ih => rw [Expr.allSpelled, Bool.and_eq_true, ih, List.forall_mem_cons]

/-! ### Names after an object -/

theorem word_of_isObject {s : String} (h : isObject s = true) :
    ∀ c ∈ s.toList, isWordChar c = true := by
  rcases Bool.or_eq_true_iff.mp h with h | h
  · rw [beq_iff_eq.mp h]
    exact List.all_eq_true.mp (by decide)
  · exact word_of_isName h

/-- The characters of atoms. -/
def isAtomChar (c : Char) : Bool := isWordChar c || c == '.' || c == '-'

theorem atom_reserved : ∀ w ∈ reservedWords, ∀ c ∈ w.toList, isAtomChar c = true := by
  have hall : ∀ w ∈ reservedWords, w.toList.all isAtomChar = true := by decide
  exact fun w hw => List.all_eq_true.mp (hall w hw)

theorem atomChar_of_wordChar {c : Char} (h : isWordChar c = true) : isAtomChar c = true := by
  simp [isAtomChar, h]

theorem Stops.word {r : List Char} (h : Stops isAtomChar r) : Stops isWordChar r := by
  intro c hc
  have hatom := h c hc
  simp only [isAtomChar, Bool.or_eq_false_iff] at hatom
  exact hatom.1.1

variable {object object' : Option String} {name name' : String}

theorem toList_qualified_some (o x : String) :
    (qualified (some o) x).toList = o.toList ++ '.' :: x.toList := by
  simp [qualified]

theorem dot_notMem_of_word {w : List Char} (h : ∀ c ∈ w, isWordChar c = true) : '.' ∉ w :=
  fun hdot => absurd (h '.' hdot) (by decide)

theorem atom_qualified (ho : object.all isObject = true) (hx : isName name = true) :
    ∀ c ∈ (qualified object name).toList, isAtomChar c = true := by
  have hname : ∀ c ∈ name.toList, isAtomChar c = true := fun c hc =>
    atomChar_of_wordChar (word_of_isName hx c hc)
  cases object with
  | none => exact hname
  | some o =>
    rw [toList_qualified_some, List.forall_mem_append, List.forall_mem_cons]
    exact ⟨fun c hc => atomChar_of_wordChar (word_of_isObject ho c hc), by decide, hname⟩

theorem qualified_inj (ho : object.all isObject = true) (hx : isName name = true)
    (ho' : object'.all isObject = true) (hx' : isName name' = true)
    (h : qualified object name = qualified object' name') : object = object' ∧ name = name' := by
  have hdot : ∀ {o x y : String}, isName y = true → qualified (some o) x ≠ qualified none y := by
    intro o x y hy heq
    refine dot_notMem_of_word (word_of_isName hy) (?_ : '.' ∈ (qualified none y).toList)
    rw [← heq, toList_qualified_some]
    exact List.mem_append_right _ (List.mem_cons_self ..)
  cases object with
  | none =>
    cases object' with
    | none => exact ⟨rfl, h⟩
    | some o' => exact absurd h.symm (hdot hx)
  | some o =>
    cases object' with
    | none => exact absurd h (hdot hx')
    | some o' =>
      have h := congrArg String.toList h
      rw [toList_qualified_some, toList_qualified_some] at h
      obtain ⟨hoo, hxx⟩ := run_append_inj (word_of_isObject ho) (word_of_isObject ho')
        (stops_cons.mpr (by decide)) (stops_cons.mpr (by decide)) h
      exact ⟨congrArg some (String.toList_inj.mp hoo), String.toList_inj.mp (List.cons.inj hxx).2⟩

/-- A name is no reserved word, with an object before it or without. -/
theorem qualified_notMem (ho : object.all isObject = true) (hx : isName name = true) :
    qualified object name ∉ reservedWords := by
  have hwords : ∀ w ∈ reservedWords, '.' ∉ w.toList := by decide
  cases object with
  | none => exact notMem_of_isName hx
  | some o =>
    intro h
    refine hwords _ h ?_
    rw [toList_qualified_some]
    exact List.mem_append_right _ (List.mem_cons_self ..)

/-! ### Numbers -/

/-- A number begins with a digit or a sign. -/
def startsNumber (c : Char) : Bool := c.isDigit || c == '-'

/-- The sign of a number and its digits. -/
theorem exists_digits (n : Int) : ∃ sign digits, (toString n).toList = sign ++ digits ∧
    (sign = [] ∨ sign = ['-']) ∧ digits ≠ [] ∧ ∀ c ∈ digits, c.isDigit = true := by
  have hdigits : ∀ k : Nat, k.repr.toList ≠ [] ∧ ∀ c ∈ k.repr.toList, c.isDigit = true := by
    intro k
    rw [Nat.repr_eq_ofList_toDigits, String.toList_ofList]
    exact ⟨Nat.toDigits_ne_nil, fun c hc =>
      Nat.isDigit_of_mem_toDigits (by decide) (by decide) hc⟩
  have hrepr : toString n = n.repr := rfl
  rw [hrepr, Int.repr_eq_if]
  split
  · exact ⟨[], _, rfl, .inl rfl, hdigits _⟩
  · exact ⟨['-'], _, String.toList_append, .inr rfl, hdigits _⟩

theorem atomChar_of_isDigit {c : Char} (h : c.isDigit = true) : isAtomChar c = true := by
  simp [isAtomChar, isWordChar, Char.isAlphanum, h]

theorem atom_number (n : Int) : ∀ c ∈ (toString n).toList, isAtomChar c = true := by
  obtain ⟨sign, digits, heq, hsign, -, hdigits⟩ := exists_digits n
  rw [heq, List.forall_mem_append]
  refine ⟨?_, fun c hc => atomChar_of_isDigit (hdigits c hc)⟩
  rcases hsign with rfl | rfl
  · exact List.forall_mem_nil _
  · exact List.forall_mem_singleton.mpr rfl

theorem start_number (n : Int) : ∃ c cs, (toString n).toList = c :: cs ∧ startsNumber c = true := by
  obtain ⟨sign, digits, heq, hsign, hne, hdigits⟩ := exists_digits n
  rw [heq]
  rcases hsign with rfl | rfl
  · obtain ⟨c, cs, rfl⟩ := List.exists_cons_of_ne_nil hne
    exact ⟨c, cs, rfl, by rw [startsNumber, hdigits c (List.mem_cons_self ..)]; rfl⟩
  · exact ⟨'-', digits, rfl, rfl⟩

/-- What begins like a number is no reserved word. -/
theorem number_notMem {s : String} {c : Char} {cs : List Char} (hs : s.toList = c :: cs)
    (hc : startsNumber c = true) : s ∉ reservedWords := by
  have hwords : ∀ w ∈ reservedWords, w.toList.head?.all (!startsNumber ·) = true := by decide
  intro hmem
  have hfirst := hwords s hmem
  simp [hs, hc] at hfirst

theorem start_object {s : String} (h : isObject s = true) :
    ∃ c cs, s.toList = c :: cs ∧ startsNumber c = false := by
  rcases Bool.or_eq_true_iff.mp h with h | h
  · rw [beq_iff_eq.mp h]
    exact ⟨'t', ['h', 'i', 's'], rfl, rfl⟩
  · obtain ⟨c, cs, heq, hc⟩ := start_of_isName h
    have hword : isWordChar c = true := word_of_isName h c (heq ▸ List.mem_cons_self ..)
    have hne : c ≠ '-' := by
      rintro rfl
      exact absurd hword (by decide)
    exact ⟨c, cs, heq, by simp [startsNumber, hc, hne]⟩

theorem start_qualified (ho : object.all isObject = true) (hx : isName name = true) :
    ∃ c cs, (qualified object name).toList = c :: cs ∧ startsNumber c = false := by
  cases object with
  | none => exact start_object (Bool.or_eq_true_iff.mpr (.inr hx))
  | some o =>
    obtain ⟨c, cs, heq, hc⟩ := start_object ho
    exact ⟨c, cs ++ '.' :: name.toList, by rw [toList_qualified_some, heq]; rfl, hc⟩

/-! ### Operators -/

theorem UnOp.symbol_append_inj {op op' : UnOp} {r r' : List Char}
    (h : op.symbol.toList ++ r = op'.symbol.toList ++ r') : op = op' ∧ r = r' := by
  cases op <;> cases op' <;> simp_all [UnOp.symbol]

/-- The symbol of an operator is told by the blank after it. -/
theorem BinOp.symbol_append_inj {op op' : BinOp} {r r' : List Char}
    (h : op.symbol.toList ++ ' ' :: r = op'.symbol.toList ++ ' ' :: r') : op = op' ∧ r = r' := by
  have hchars : ∀ op : BinOp, op.symbol.toList.all (· != ' ') = true := by
    intro op
    cases op <;> decide
  obtain ⟨hsymbol, hr⟩ := run_append_inj (List.all_eq_true.mp (hchars op))
    (List.all_eq_true.mp (hchars op')) (stops_cons.mpr (by decide)) (stops_cons.mpr (by decide)) h
  have hread := congrArg BinOp.ofSymbol? (String.toList_inj.mp hsymbol)
  rw [BinOp.ofSymbol?_symbol, BinOp.ofSymbol?_symbol] at hread
  exact ⟨Option.some.inj hread, (List.cons.inj hr).2⟩

/-! ### Texts and their first atoms -/

namespace Expr

def text (e : Expr) : List Char := e.source.toList

theorem sources_eq_map (es : List Expr) : sources es = es.map source := by
  induction es with
  | nil => rfl
  | cons e es ih => rw [sources, ih, List.map_cons]

theorem intercalate_sources (args : List Expr) :
    [',', ' '].intercalate ((sources args).map String.toList) = commas text args := by
  rw [sources_eq_map, List.map_map]
  rfl

theorem text_binary (m : Mark) (op : BinOp) (l r : Expr) : (binary m op l r).text =
    '(' :: (l.text ++ ' ' :: (op.symbol.toList ++ ' ' :: (r.text ++ [')']))) := by
  simp [text, source]

theorem text_unary (m : Mark) (op : UnOp) (x : Expr) : (unary m op x).text =
    '(' :: (op.symbol.toList ++ (x.text ++ [')'])) := by
  simp [text, source]

/-- The atom that an expression begins with; operators begin with none. -/
def atom : Expr → String
  | number _ n => toString n.toInt
  | bool _ b => if b then "true" else "false"
  | this _ => receiverName
  | var _ object name _ _ | call _ object name _ _ _ => qualified object name
  | create .. => "new"
  | binary .. | unary .. => ""

/-- What stands after the atom. -/
def tail : Expr → List Char
  | number .. | bool .. | this _ | var .. => []
  | call _ _ _ args _ _ => '(' :: (commas text args ++ [')'])
  | create _ cls args _ => ' ' :: (cls.toList ++ '(' :: (commas text args ++ [')']))
  | binary m op l r => (binary m op l r).text
  | unary m op x => (unary m op x).text

theorem text_eq (e : Expr) : e.text = e.atom.toList ++ e.tail := by
  cases e with
  | number | bool | this | var => exact (List.append_nil _).symm
  | binary | unary => rfl
  | call => simp [text, source, atom, tail, intercalate_sources]
  | create => simp [text, source, atom, tail, intercalate_sources]

theorem atom_chars {e : Expr} (h : e.spelled = true) :
    ∀ c ∈ e.atom.toList, isAtomChar c = true := by
  cases e with
  | number m n => exact atom_number n.toInt
  | bool m b =>
    cases b with
    | false => exact atom_reserved "false" (by decide)
    | true => exact atom_reserved "true" (by decide)
  | this => exact atom_reserved "this" (by decide)
  | var =>
    obtain ⟨ho, hx⟩ := Bool.and_eq_true_iff.mp h
    exact atom_qualified ho hx
  | binary | unary => exact List.forall_mem_nil _
  | call =>
    obtain ⟨h, -⟩ := Bool.and_eq_true_iff.mp h
    obtain ⟨ho, hx⟩ := Bool.and_eq_true_iff.mp h
    exact atom_qualified ho hx
  | create => exact atom_reserved "new" (by decide)

/-- What may follow an expression. -/
def Ends (r : List Char) : Prop := ∀ c ∈ r.head?, c ∈ [' ', ')', ',', ';']

theorem ends_nil : Ends [] := nofun

@[simp] theorem ends_cons {c : Char} {t : List Char} :
    Ends (c :: t) ↔ c ∈ [' ', ')', ',', ';'] := by
  simp [Ends]

theorem Ends.stops {r : List Char} (h : Ends r) : Stops isAtomChar r := by
  have hchars : [' ', ')', ',', ';'].all (!isAtomChar ·) = true := by decide
  intro c hc
  simpa using List.all_eq_true.mp hchars c (h c hc)

theorem stops_tail (e : Expr) {r : List Char} (hr : Ends r) : Stops isAtomChar (e.tail ++ r) := by
  cases e with
  | number | bool | this | var => exact hr.stops
  | binary =>
    rw [tail, text_binary]
    exact stops_cons.mpr (by decide)
  | unary =>
    rw [tail, text_unary]
    exact stops_cons.mpr (by decide)
  | call => exact stops_cons.mpr (by decide)
  | create => exact stops_cons.mpr (by decide)

/-- The kinds of expressions that the beginning of a text tells apart. -/
inductive Kind where
  | number
  | bool
  | this
  | var
  | operator
  | call
  | create

def kind : Expr → Kind
  | .number .. => .number
  | .bool .. => .bool
  | .this _ => .this
  | .var .. => .var
  | .binary .. | .unary .. => .operator
  | .call .. => .call
  | .create .. => .create

/-- The kind of an expression, from its atom and the character after it. -/
def Kind.of (atom : String) (next : Option Char) : Kind :=
  if atom = "true" ∨ atom = "false" then .bool
  else if atom = "this" then .this
  else if atom = "new" then .create
  else
    match atom.toList with
    | [] => .operator
    | c :: _ => if startsNumber c then .number else if next = some '(' then .call else .var

/-- Past the reserved words, the first character and the next one decide. -/
theorem Kind.of_notMem {s : String} {c : Char} {cs : List Char} (hs : s.toList = c :: cs)
    (h : s ∉ reservedWords) (next : Option Char) : Kind.of s next =
      if startsNumber c then .number else if next = some '(' then .call else .var := by
  have hne : ∀ w ∈ reservedWords, s ≠ w := fun w hw heq => h (heq ▸ hw)
  unfold Kind.of
  rw [if_neg, if_neg (hne "this" (by decide)), if_neg (hne "new" (by decide)), hs]
  exact not_or.mpr ⟨hne "true" (by decide), hne "false" (by decide)⟩

theorem Kind.of_number {s : String} {c : Char} {cs : List Char} (hs : s.toList = c :: cs)
    (hc : startsNumber c = true) (next : Option Char) : Kind.of s next = .number := by
  rw [Kind.of_notMem hs (number_notMem hs hc), if_pos hc]

theorem Kind.of_qualified {object : Option String} {name : String}
    (ho : object.all isObject = true) (hx : isName name = true) (next : Option Char) :
    Kind.of (qualified object name) next = if next = some '(' then .call else .var := by
  obtain ⟨c, cs, heq, hc⟩ := start_qualified ho hx
  rw [Kind.of_notMem heq (qualified_notMem ho hx), hc]
  rfl

theorem kind_eq_of {e : Expr} (h : e.spelled = true) {r : List Char} (hr : Ends r) :
    Kind.of e.atom (e.tail ++ r).head? = e.kind := by
  cases e with
  | number m n =>
    obtain ⟨c, cs, heq, hc⟩ := start_number n.toInt
    exact Kind.of_number heq hc _
  | bool m b => cases b <;> rfl
  | this => rfl
  | var =>
    obtain ⟨ho, hx⟩ := Bool.and_eq_true_iff.mp h
    have hnext : r.head? ≠ some '(' := fun heq => absurd (hr '(' heq) (by decide)
    exact (Kind.of_qualified ho hx _).trans (if_neg hnext)
  | binary | unary => rfl
  | call =>
    obtain ⟨h, -⟩ := Bool.and_eq_true_iff.mp h
    obtain ⟨ho, hx⟩ := Bool.and_eq_true_iff.mp h
    exact (Kind.of_qualified ho hx _).trans (if_pos rfl)
  | create => rfl

/-- Expressions whose texts go on to be the same have the same kind, atom and tail. -/
theorem eq_of_text {e e' : Expr} {r r' : List Char} (he : e.spelled = true)
    (he' : e'.spelled = true) (hr : Ends r) (hr' : Ends r') (h : e.text ++ r = e'.text ++ r') :
    e.kind = e'.kind ∧ e.atom = e'.atom ∧ e.tail ++ r = e'.tail ++ r' := by
  rw [text_eq, text_eq, List.append_assoc, List.append_assoc] at h
  obtain ⟨hatom, htail⟩ := run_append_inj (atom_chars he) (atom_chars he') (e.stops_tail hr)
    (e'.stops_tail hr') h
  have hatom := String.toList_inj.mp hatom
  refine ⟨?_, hatom, htail⟩
  rw [← kind_eq_of he hr, ← kind_eq_of he' hr', hatom, htail]

theorem start_text {e : Expr} (h : e.spelled = true) :
    ∃ c cs, e.text = c :: cs ∧ (isAtomChar c || c == '(') = true := by
  cases hatom : e.atom.toList with
  | cons c cs =>
    have hc : isAtomChar c = true := atom_chars h c (hatom ▸ List.mem_cons_self ..)
    exact ⟨c, cs ++ e.tail, by rw [text_eq, hatom]; rfl, by rw [hc]; rfl⟩
  | nil =>
    have hkind : e.kind = .operator := by
      rw [← kind_eq_of h ends_nil, String.toList_eq_nil_iff.mp hatom]
      rfl
    cases e with
    | binary => exact ⟨'(', _, text_binary .., rfl⟩
    | unary => exact ⟨'(', _, text_unary .., rfl⟩
    | _ => cases hkind

theorem text_append_ne {e : Expr} (h : e.spelled = true) {c : Char}
    (hc : (isAtomChar c || c == '(') = false) (r s : List Char) : e.text ++ r ≠ c :: s := by
  obtain ⟨d, ds, htext, hd⟩ := start_text h
  rw [htext]
  intro heq
  rw [(List.cons.inj heq).1, hc] at hd
  cases hd

/-- An expression that begins with a digit or a sign is a number. -/
theorem exists_number {e : Expr} {c : Char} {cs : List Char} (h : e.spelled = true)
    (hatom : e.atom.toList = c :: cs) (hc : startsNumber c = true) : ∃ m n, e = .number m n := by
  have hkind : e.kind = .number := by
    rw [← kind_eq_of h ends_nil, Kind.of_number hatom hc]
  cases e with
  | number m n => exact ⟨m, n, rfl⟩
  | _ => cases hkind

/-- A minus after a bracket is an operator or the sign of the first number, and the text after the
number decides. -/
theorem unary_ne_binary {m m' : Mark} {op : UnOp} {op' : BinOp} {x l y : Expr}
    (hx : x.spelled = true) (hl : l.spelled = true) (r r' : List Char) :
    (unary m op x).text ++ r ≠ (binary m' op' l y).text ++ r' := by
  intro h
  obtain ⟨rest, hrest⟩ : ∃ rest,
      op.symbol.toList ++ (x.text ++ ')' :: r) = l.text ++ ' ' :: rest := by
    rw [text_unary, text_binary] at h
    simp only [List.cons_append, List.append_assoc, List.cons.injEq, true_and] at h
    exact ⟨_, h⟩
  have hends : Ends (' ' :: rest) := ends_cons.mpr (by decide)
  cases op with
  | not => exact text_append_ne hl (by decide) _ _ hrest.symm
  | neg =>
    -- the left operand begins with the minus, so it is a number
    obtain ⟨cs, hatom⟩ : ∃ cs, l.atom.toList = '-' :: cs := by
      have hword := takeWhile_of_stops (atom_chars hl) (l.stops_tail hends)
      rw [← List.append_assoc, ← text_eq, ← hrest] at hword
      exact ⟨_, hword.symm⟩
    obtain ⟨k, n, rfl⟩ := exists_number hl hatom rfl
    obtain ⟨sign, digits, heq, hsign, hne, hdigits⟩ := exists_digits n.toInt
    obtain ⟨d, ds, rfl⟩ := List.exists_cons_of_ne_nil hne
    have hd : d.isDigit = true := hdigits d (List.mem_cons_self ..)
    rw [show (number k n).text = _ from heq] at hrest
    rcases hsign with rfl | rfl
    · obtain rfl : '-' = d := (List.cons.inj hrest).1
      exact absurd hd (by decide)
    · -- and then so is the operand of the minus, but a blank does not close a bracket
      have hx' : x.atom.toList ++ (x.tail ++ ')' :: r) = (d :: ds) ++ ' ' :: rest := by
        rw [← List.append_assoc, ← text_eq]
        exact (List.cons.inj hrest).2
      obtain ⟨hxatom, hxtail⟩ := run_append_inj (atom_chars hx)
        (fun c hc => atomChar_of_isDigit (hdigits c hc)) (x.stops_tail (ends_cons.mpr (by decide)))
        hends.stops hx'
      obtain ⟨j, i, rfl⟩ := exists_number hx hxatom (by rw [startsNumber, hd]; rfl)
      exact absurd (List.cons.inj hxtail).1 (by decide)

theorem told_args {args args' : List Expr} {r r' : List Char}
    (htold : ∀ e ∈ args, Told text plain spelled Ends e) (hok : allSpelled args = true)
    (hok' : allSpelled args' = true)
    (h : commas text args ++ ')' :: r = commas text args' ++ ')' :: r') :
    plainList args = plainList args' ∧ r = r' := by
  rw [plainList_eq_map, plainList_eq_map]
  exact told_commas (fun t => ends_cons.mpr (by decide)) (fun t => ends_cons.mpr (by decide))
    (fun _ r t he => text_append_ne he (by decide) r t) htold (allSpelled_iff.mp hok)
    (allSpelled_iff.mp hok') h

mutual

/-- **An expression is told by its text.** -/
theorem told : ∀ {e : Expr}, e.spelled = true → Told text plain spelled Ends e
  | .number m n, he => by
    intro e' r r' he' hr hr' h
    obtain ⟨hkind, hatom, htail⟩ := eq_of_text he he' hr hr' h
    cases e' with
    | number m' n' =>
      have hn : n.toInt = n'.toInt := Int.repr_injective hatom
      exact ⟨by rw [plain, plain, Int64.toInt_inj.mp hn], htail⟩
    | _ => cases hkind
  | .bool m b, he => by
    intro e' r r' he' hr hr' h
    obtain ⟨hkind, hatom, htail⟩ := eq_of_text he he' hr hr' h
    cases e' with
    | bool m' b' =>
      have hinj : ∀ b b' : Bool, (if b then "true" else "false") =
          (if b' then "true" else "false") → b = b' := by
        decide
      exact ⟨by rw [plain, plain, hinj b b' hatom], htail⟩
    | _ => cases hkind
  | .this m, he => by
    intro e' r r' he' hr hr' h
    obtain ⟨hkind, -, htail⟩ := eq_of_text he he' hr hr' h
    cases e' with
    | this m' => exact ⟨rfl, htail⟩
    | _ => cases hkind
  | .var m o x b ob, he => by
    intro e' r r' he' hr hr' h
    obtain ⟨hkind, hatom, htail⟩ := eq_of_text he he' hr hr' h
    cases e' with
    | var m' o' x' b' ob' =>
      obtain ⟨ho, hx⟩ := Bool.and_eq_true_iff.mp he
      obtain ⟨ho', hx'⟩ := Bool.and_eq_true_iff.mp he'
      obtain ⟨rfl, rfl⟩ := qualified_inj ho hx ho' hx' hatom
      exact ⟨rfl, htail⟩
    | _ => cases hkind
  | .unary m op x, he => by
    intro e' r r' he' hr hr' h
    obtain ⟨hkind, -, -⟩ := eq_of_text he he' hr hr' h
    have hx : x.spelled = true := he
    cases e' with
    | unary m' op' x' =>
      have hx' : x'.spelled = true := he'
      rw [text_unary, text_unary] at h
      simp only [List.cons_append, List.nil_append, List.append_assoc, List.cons.injEq,
        true_and] at h
      obtain ⟨hop, h⟩ := UnOp.symbol_append_inj h
      obtain ⟨hxx, h⟩ := told hx hx' (ends_cons.mpr (by decide)) (ends_cons.mpr (by decide)) h
      exact ⟨by rw [plain, plain, hop, hxx], (List.cons.inj h).2⟩
    | binary m' op' l' y' =>
      exact absurd h (unary_ne_binary hx (Bool.and_eq_true_iff.mp he').1 r r')
    | _ => cases hkind
  | .binary m op l y, he => by
    intro e' r r' he' hr hr' h
    obtain ⟨hkind, -, -⟩ := eq_of_text he he' hr hr' h
    obtain ⟨hl, hy⟩ := Bool.and_eq_true_iff.mp he
    cases e' with
    | unary m' op' x' =>
      have hx' : x'.spelled = true := he'
      exact absurd h.symm (unary_ne_binary hx' hl r' r)
    | binary m' op' l' y' =>
      obtain ⟨hl', hy'⟩ := Bool.and_eq_true_iff.mp he'
      rw [text_binary, text_binary] at h
      simp only [List.cons_append, List.nil_append, List.append_assoc, List.cons.injEq,
        true_and] at h
      obtain ⟨hll, h⟩ := told hl hl' (ends_cons.mpr (by decide)) (ends_cons.mpr (by decide)) h
      obtain ⟨hop, h⟩ := BinOp.symbol_append_inj (List.cons.inj h).2
      obtain ⟨hyy, h⟩ := told hy hy' (ends_cons.mpr (by decide)) (ends_cons.mpr (by decide)) h
      exact ⟨by rw [plain, plain, hll, hop, hyy], (List.cons.inj h).2⟩
    | _ => cases hkind
  | .call m o f args b ob, he => by
    intro e' r r' he' hr hr' h
    obtain ⟨hkind, hatom, htail⟩ := eq_of_text he he' hr hr' h
    cases e' with
    | call m' o' f' args' b' ob' =>
      obtain ⟨h₁, hargs⟩ := Bool.and_eq_true_iff.mp he
      obtain ⟨ho, hf⟩ := Bool.and_eq_true_iff.mp h₁
      obtain ⟨h₁', hargs'⟩ := Bool.and_eq_true_iff.mp he'
      obtain ⟨ho', hf'⟩ := Bool.and_eq_true_iff.mp h₁'
      obtain ⟨rfl, rfl⟩ := qualified_inj ho hf ho' hf' hatom
      simp only [tail, List.cons_append, List.append_assoc, List.cons.injEq, true_and,
        List.nil_append] at htail
      obtain ⟨ha, hr⟩ := told_args (told_all hargs) hargs hargs' htail
      exact ⟨by rw [plain, plain, ha], hr⟩
    | _ => cases hkind
  | .create m c args b, he => by
    intro e' r r' he' hr hr' h
    obtain ⟨hkind, -, htail⟩ := eq_of_text he he' hr hr' h
    cases e' with
    | create m' c' args' b' =>
      obtain ⟨hc, hargs⟩ := Bool.and_eq_true_iff.mp he
      obtain ⟨hc', hargs'⟩ := Bool.and_eq_true_iff.mp he'
      simp only [tail, List.cons_append, List.append_assoc, List.cons.injEq, true_and,
        List.nil_append] at htail
      obtain ⟨hcc, htail⟩ := run_append_inj (word_of_isName hc) (word_of_isName hc')
        (stops_cons.mpr (by decide)) (stops_cons.mpr (by decide)) htail
      obtain ⟨ha, hr⟩ := told_args (told_all hargs) hargs hargs' (List.cons.inj htail).2
      exact ⟨by rw [plain, plain, ha, String.toList_inj.mp hcc], hr⟩
    | _ => cases hkind

theorem told_all : ∀ {es : List Expr}, allSpelled es = true →
    ∀ e ∈ es, Told text plain spelled Ends e
  | [], _ => List.forall_mem_nil _
  | e :: es, h => by
    obtain ⟨he, hes⟩ := Bool.and_eq_true_iff.mp h
    exact List.forall_mem_cons.mpr ⟨told he, told_all hes⟩

end

end Expr

end ClassLang
