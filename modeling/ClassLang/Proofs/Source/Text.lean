import ClassLang.Tree.Source
import Mathlib.Data.List.Basic

/-!
# Texts that can be told apart

A printed tree is made of pieces that are written one after the other. To read it back it must be
clear from the text alone where each piece ends. A word ends where its characters do (`Stops`,
`run_append_inj`); any other piece ends where what it says has been said (`Told`). If the items of a
list can be told, so can the list, provided that what closes the list is not taken for a further
item (`told_items`); so it is between brackets and between braces (`told_commas`, `told_braces`).

Names as a program can contain them (`isName`) are words that are not reserved.
-/

namespace ClassLang

/-! ### Words -/

/-- The text does not go on with a character of the class `p`. -/
def Stops (p : Char → Bool) (t : List Char) : Prop := ∀ c ∈ t.head?, p c = false

@[simp] theorem stops_cons {p : Char → Bool} {c : Char} {t : List Char} :
    Stops p (c :: t) ↔ p c = false := by
  simp [Stops]

theorem takeWhile_of_stops {p : Char → Bool} {w r : List Char} (hw : ∀ c ∈ w, p c = true)
    (hr : Stops p r) : (w ++ r).takeWhile p = w := by
  rw [List.takeWhile_append_of_pos hw]
  cases r with
  | nil => simp
  | cons c r => simp [stops_cons.mp hr]

/-- Runs of characters of one class are told apart by what follows them. -/
theorem run_append_inj {p : Char → Bool} {w w' r r' : List Char} (hw : ∀ c ∈ w, p c = true)
    (hw' : ∀ c ∈ w', p c = true) (hr : Stops p r) (hr' : Stops p r') (h : w ++ r = w' ++ r') :
    w = w' ∧ r = r' := by
  have hword : w = w' := by
    rw [← takeWhile_of_stops hw hr, h, takeWhile_of_stops hw' hr']
  exact ⟨hword, List.append_cancel_left (hword ▸ h)⟩

/-- The letters and digits of ASCII, and the underscore. -/
def isWordChar (c : Char) : Bool := c.isAlphanum || c == '_'

/-- The words that are neither names nor types. -/
def keywords : List String :=
  ["true", "false", "this", "new", "class", "extends", "cons", "if", "else", "while", "return",
    "print"]

def reservedWords : List String := keywords ++ ["int", "bool", "void"]

/-- A name as a program can contain it. -/
def isName (s : String) : Bool :=
  s.toList.all isWordChar && s.toList.head?.any (!·.isDigit) && !reservedWords.contains s

theorem word_of_isName {s : String} (h : isName s = true) :
    ∀ c ∈ s.toList, isWordChar c = true := by
  simp only [isName, Bool.and_eq_true, List.all_eq_true] at h
  exact h.1.1

theorem start_of_isName {s : String} (h : isName s = true) :
    ∃ c cs, s.toList = c :: cs ∧ c.isDigit = false := by
  simp only [isName, Bool.and_eq_true] at h
  cases hs : s.toList with
  | nil => simp [hs] at h
  | cons c cs => exact ⟨c, cs, rfl, by simpa [hs] using h.1.2⟩

theorem notMem_of_isName {s : String} (h : isName s = true) : s ∉ reservedWords := by
  simp only [isName, Bool.and_eq_true, Bool.not_eq_true', List.contains_eq_mem,
    decide_eq_false_iff_not] at h
  exact h.2

/-! ### Pieces -/

section Told

variable {α β : Type} {text : α → List Char} {sense : α → β} {ok : α → Bool}
  {ends closes : List Char → Prop}

/-- The text of `a` tells what `a` says, and where it ends if it is followed as `ends` says. -/
def Told (text : α → List Char) (sense : α → β) (ok : α → Bool) (ends : List Char → Prop) (a : α) :
    Prop :=
  ∀ ⦃a' r r'⦄, ok a' = true → ends r → ends r' → text a ++ r = text a' ++ r' →
    sense a = sense a' ∧ r = r'

theorem Told.eq_of_text {a a' : α} (h : Told text sense ok ends a) (ha' : ok a' = true)
    (hnil : ends []) (heq : text a = text a') : sense a = sense a' :=
  (h ha' hnil hnil (congrArg (· ++ []) heq)).1

/-- A list whose items stand after `sep` each is told apart from what closes it. -/
structure Listed (text : α → List Char) (ok : α → Bool) (ends closes : List Char → Prop)
    (sep : List Char) : Prop where
  ends_close : ∀ r, closes r → ends r
  ends_item : ∀ a r, ok a = true → ends (sep ++ (text a ++ r))
  item_ne_close : ∀ a r, ok a = true → ¬ closes (sep ++ (text a ++ r))

/-- The items, each after `sep`. -/
def items (text : α → List Char) (sep : List Char) (l : List α) : List Char :=
  l.flatMap fun a => sep ++ text a

variable {sep : List Char}

theorem items_cons (a : α) (l : List α) (r : List Char) :
    items text sep (a :: l) ++ r = sep ++ (text a ++ (items text sep l ++ r)) := by
  simp [items]

theorem Listed.ends_items (h : Listed text ok ends closes sep) {l : List α} {r : List Char}
    (hok : ∀ a ∈ l, ok a = true) (hr : closes r) : ends (items text sep l ++ r) := by
  cases l with
  | nil => exact h.ends_close r hr
  | cons a l =>
    rw [items_cons]
    exact h.ends_item a _ (hok a (List.mem_cons_self ..))

/-- **A list is told by its items.** -/
theorem told_items (h : Listed text ok ends closes sep) : ∀ {l l' : List α} {r r' : List Char},
    (∀ a ∈ l, Told text sense ok ends a) → (∀ a ∈ l, ok a = true) → (∀ a ∈ l', ok a = true) →
    closes r → closes r' → items text sep l ++ r = items text sep l' ++ r' →
    l.map sense = l'.map sense ∧ r = r'
  | [], [], _, _, _, _, _, _, _, heq => ⟨rfl, heq⟩
  | [], a' :: l', r, r', _, _, hok', hr, _, heq => by
    rw [items_cons] at heq
    have hr : closes (sep ++ (text a' ++ (items text sep l' ++ r'))) := heq ▸ hr
    exact absurd hr (h.item_ne_close a' _ (hok' a' (List.mem_cons_self ..)))
  | a :: l, [], r, r', _, hok, _, _, hr', heq => by
    rw [items_cons] at heq
    have hr' : closes (sep ++ (text a ++ (items text sep l ++ r))) := heq ▸ hr'
    exact absurd hr' (h.item_ne_close a _ (hok a (List.mem_cons_self ..)))
  | a :: l, a' :: l', r, r', htold, hok, hok', hr, hr', heq => by
    obtain ⟨hta, htold⟩ := List.forall_mem_cons.mp htold
    obtain ⟨hoa, hok⟩ := List.forall_mem_cons.mp hok
    obtain ⟨hoa', hok'⟩ := List.forall_mem_cons.mp hok'
    rw [items_cons, items_cons] at heq
    obtain ⟨ha, hrest⟩ := hta hoa' (h.ends_items hok hr) (h.ends_items hok' hr')
      (List.append_cancel_left heq)
    obtain ⟨hl, hr⟩ := told_items h htold hok hok' hr hr' hrest
    exact ⟨by rw [List.map_cons, List.map_cons, ha, hl], hr⟩

theorem intercalate_cons (a : α) (l : List α) (r : List Char) :
    sep.intercalate ((a :: l).map text) ++ r = text a ++ (items text sep l ++ r) := by
  induction l generalizing a with
  | nil => simp [items]
  | cons b l ih =>
    rw [List.map_cons, List.map_cons, List.intercalate_cons_cons, ← List.map_cons,
      List.append_assoc, ih b, items_cons, List.append_assoc]

/-- The same of a list with `sep` between its items. -/
theorem told_intercalate (h : Listed text ok ends closes sep)
    (hfirst : ∀ a r, ok a = true → ¬ closes (text a ++ r)) {l l' : List α} {r r' : List Char}
    (htold : ∀ a ∈ l, Told text sense ok ends a) (hok : ∀ a ∈ l, ok a = true)
    (hok' : ∀ a ∈ l', ok a = true) (hr : closes r) (hr' : closes r')
    (heq : sep.intercalate (l.map text) ++ r = sep.intercalate (l'.map text) ++ r') :
    l.map sense = l'.map sense ∧ r = r' := by
  cases l with
  | nil =>
    cases l' with
    | nil => exact ⟨rfl, heq⟩
    | cons a' l' =>
      rw [intercalate_cons] at heq
      have hr : closes (text a' ++ (items text sep l' ++ r')) := heq ▸ hr
      exact absurd hr (hfirst a' _ (hok' a' (List.mem_cons_self ..)))
  | cons a l =>
    rw [intercalate_cons] at heq
    cases l' with
    | nil =>
      have hr' : closes (text a ++ (items text sep l ++ r)) := heq ▸ hr'
      exact absurd hr' (hfirst a _ (hok a (List.mem_cons_self ..)))
    | cons a' l' =>
      -- with one more `sep` in front both lists are items
      rw [intercalate_cons] at heq
      have hitems := congrArg (sep ++ ·) heq
      simp only [← items_cons] at hitems
      exact told_items h htold hok hok' hr hr' hitems

/-- Items with commas between them. -/
def commas (text : α → List Char) (l : List α) : List Char := [',', ' '].intercalate (l.map text)

/-- A list in brackets is told by its items. -/
theorem told_commas (hcomma : ∀ t, ends (',' :: t)) (hclose : ∀ t, ends (')' :: t))
    (hfirst : ∀ a r t, ok a = true → text a ++ r ≠ ')' :: t) {l l' : List α} {r r' : List Char}
    (htold : ∀ a ∈ l, Told text sense ok ends a) (hok : ∀ a ∈ l, ok a = true)
    (hok' : ∀ a ∈ l', ok a = true) (heq : commas text l ++ ')' :: r = commas text l' ++ ')' :: r') :
    l.map sense = l'.map sense ∧ r = r' := by
  have hlisted : Listed text ok ends (fun r => ∃ t, r = ')' :: t) [',', ' '] := by
    refine ⟨?_, fun a r _ => hcomma _, ?_⟩
    · rintro _ ⟨t, rfl⟩
      exact hclose t
    · rintro a r - ⟨t, h⟩
      exact absurd (List.cons.inj h).1 (by decide)
  have hne : ∀ a r, ok a = true → ¬ ∃ t, text a ++ r = ')' :: t := fun a r ha ⟨t, h⟩ =>
    hfirst a r t ha h
  obtain ⟨hl, hr⟩ := told_intercalate hlisted hne htold hok hok' ⟨r, rfl⟩ ⟨r', rfl⟩ heq
  exact ⟨hl, (List.cons.inj hr).2⟩

/-- Items between braces, with a blank before each and before the closing brace. -/
def braces (text : α → List Char) (l : List α) : List Char :=
  '\x7b' :: (items text [' '] l ++ [' ', '\x7d'])

/-- A list in braces is told by its items. -/
theorem told_braces (hclose : ∀ t, ends (' ' :: '\x7d' :: t))
    (hitem : ∀ a r, ok a = true → ends (' ' :: (text a ++ r)))
    (hfirst : ∀ a r t, ok a = true → text a ++ r ≠ '\x7d' :: t) {l l' : List α} {r r' : List Char}
    (htold : ∀ a ∈ l, Told text sense ok ends a) (hok : ∀ a ∈ l, ok a = true)
    (hok' : ∀ a ∈ l', ok a = true) (heq : braces text l ++ r = braces text l' ++ r') :
    l.map sense = l'.map sense ∧ r = r' := by
  have hlisted : Listed text ok ends (fun r => ∃ t, r = ' ' :: '\x7d' :: t) [' '] := by
    refine ⟨?_, hitem, ?_⟩
    · rintro _ ⟨t, rfl⟩
      exact hclose t
    · rintro a r ha ⟨t, h⟩
      exact hfirst a r t ha (List.cons.inj h).2
  simp only [braces, List.cons_append, List.nil_append, List.append_assoc, List.cons.injEq,
    true_and] at heq
  obtain ⟨hl, hr⟩ := told_items hlisted htold hok hok' ⟨r, rfl⟩ ⟨r', rfl⟩ heq
  exact ⟨hl, (List.cons.inj (List.cons.inj hr).2).2⟩

end Told

end ClassLang
