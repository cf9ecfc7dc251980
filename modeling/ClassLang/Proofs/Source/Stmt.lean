import ClassLang.Proofs.Source.Expr

/-!
# The source text of a statement

A statement begins with a brace, a keyword, a type or an expression. Its first atom and the two
characters after it say which (`Stmt.Kind.of`). Statements end with a semicolon or a brace, so only
one of them has to look at what follows: a branch without an alternative, which must not be followed
by one (`Stmt.NoElse`). In a list of statements that never happens, since no statement begins with
`else`.
-/

namespace ClassLang

/-! ### Types -/

/-- The type is built in or a class with a name. -/
def Ty.spelled : Ty → Bool
  | cls c => isName c
  | _ => true

theorem Ty.word_of_spelled {t : Ty} (h : t.spelled = true) :
    ∀ c ∈ t.name.toList, isWordChar c = true := by
  cases t with
  | cls c => exact word_of_isName h
  | _ => exact List.all_eq_true.mp (by decide)

theorem Ty.name_notMem {t : Ty} (h : t.spelled = true) : t.name ∉ keywords := by
  cases t with
  | cls c => exact fun hmem => notMem_of_isName h (List.mem_append_left _ hmem)
  | _ => decide

/-- The name of a type begins with a character of names. -/
theorem Ty.name_append_ne {t : Ty} (h : t.spelled = true) {c : Char} (hc : isWordChar c = false)
    (r s : List Char) : t.name.toList ++ r ≠ c :: s := by
  obtain ⟨d, ds, hname⟩ : ∃ d ds, t.name.toList = d :: ds := by
    cases t with
    | cls x =>
      obtain ⟨d, ds, heq, -⟩ := start_of_isName h
      exact ⟨d, ds, heq⟩
    | _ => exact ⟨_, _, rfl⟩
  have hd : isWordChar d = true := Ty.word_of_spelled h d (hname ▸ List.mem_cons_self ..)
  rw [hname]
  intro heq
  rw [(List.cons.inj heq).1, hc] at hd
  cases hd

theorem Ty.eq_of_name {t t' : Ty} (h : t.spelled = true) (h' : t'.spelled = true)
    (heq : t.name.toList = t'.name.toList) : t = t' := by
  have hread : ∀ {t : Ty}, t.spelled = true → ofName t.name = t := by
    intro t h
    refine ofName_name fun c hc => ?_
    have hne : ∀ w ∈ reservedWords, c ≠ w := by
      subst hc
      exact fun w hw heq => notMem_of_isName h (heq ▸ hw)
    exact ⟨hne _ (by decide), hne _ (by decide), hne _ (by decide)⟩
  rw [← hread h, ← hread h', String.toList_inj.mp heq]

/-- A name after its type is told by what ends it. -/
theorem typed_inj {t t' : Ty} {x x' : String} {r r' : List Char} (ht : t.spelled = true)
    (hx : isName x = true) (ht' : t'.spelled = true) (hx' : isName x' = true)
    (hr : Stops isWordChar r) (hr' : Stops isWordChar r')
    (h : t.name.toList ++ ' ' :: (x.toList ++ r) = t'.name.toList ++ ' ' :: (x'.toList ++ r')) :
    t = t' ∧ x = x' ∧ r = r' := by
  obtain ⟨htt, h⟩ := run_append_inj (Ty.word_of_spelled ht) (Ty.word_of_spelled ht')
    (stops_cons.mpr (by decide)) (stops_cons.mpr (by decide)) h
  obtain ⟨hxx, h⟩ := run_append_inj (word_of_isName hx) (word_of_isName hx') hr hr'
    (List.cons.inj h).2
  exact ⟨Ty.eq_of_name ht ht' htt, String.toList_inj.mp hxx, h⟩

/-! ### Statements as a program can contain them -/

mutual

/-- Every name in the statement is one that a program can contain. -/
def Stmt.spelled : Stmt → Bool
  | .block _ body => Stmt.allSpelled body
  | .ifThen _ c t => c.spelled && Stmt.allSpelled t
  | .ifElse _ c t f => c.spelled && Stmt.allSpelled t && Stmt.allSpelled f
  | .loop _ c body => c.spelled && Stmt.allSpelled body
  | .assign _ t v => t.spelled && v.spelled
  | .declare _ ty name init => ty.spelled && isName name && init.all Expr.spelled
  | .ret _ v => v.all Expr.spelled
  | .print _ v | .eval _ v => v.spelled

def Stmt.allSpelled : List Stmt → Bool
  | [] => true
  | s :: rest => s.spelled && Stmt.allSpelled rest

end

theorem Stmt.allSpelled_iff {ss : List Stmt} :
    Stmt.allSpelled ss = true ↔ ∀ s ∈ ss, s.spelled = true := by
  induction ss with
  | nil => simp [Stmt.allSpelled]
  | cons s ss ih => rw [Stmt.allSpelled, Bool.and_eq_true, ih, List.forall_mem_cons]

/-! ### An expression or none before a semicolon -/

/-- The semicolon that ends a statement, after the expression that `lead` introduces, if any. -/
def Expr.ending (lead : List Char) : Option Expr → List Char
  | none => [';']
  | some e => lead ++ (e.text ++ [';'])

theorem Expr.ends_ending {lead : List Char} (hlead : lead.head? = some ' ') (v : Option Expr)
    (r : List Char) : Ends (Expr.ending lead v ++ r) := by
  obtain ⟨rest, rfl⟩ := List.head?_eq_some_iff.mp hlead
  cases v with
  | none => exact ends_cons.mpr (by decide)
  | some e => exact ends_cons.mpr (by decide)

theorem Expr.told_ending {lead : List Char} (hlead : lead.head? = some ' ') {v v' : Option Expr}
    {r r' : List Char} (hv : v.all spelled = true) (hv' : v'.all spelled = true)
    (h : ending lead v ++ r = ending lead v' ++ r') : v.map plain = v'.map plain ∧ r = r' := by
  obtain ⟨rest, rfl⟩ := List.head?_eq_some_iff.mp hlead
  cases v with
  | none =>
    cases v' with
    | none => exact ⟨rfl, (List.cons.inj h).2⟩
    | some e' => exact absurd (List.cons.inj h).1 (by decide)
  | some e =>
    cases v' with
    | none => exact absurd (List.cons.inj h).1 (by decide)
    | some e' =>
      simp only [ending, List.append_assoc, List.append_cancel_left_eq, List.cons_append,
        List.nil_append, List.cons.injEq, true_and] at h
      obtain ⟨hee, h⟩ := told hv hv' (ends_cons.mpr (by decide)) (ends_cons.mpr (by decide)) h
      exact ⟨congrArg some hee, (List.cons.inj h).2⟩

/-! ### Texts and their first atoms -/

namespace Stmt

def text (s : Stmt) : List Char := s.source.toList

/-- Statements between braces, after a condition in brackets. -/
def guarded (c : Expr) (body : List Stmt) : List Char :=
  ' ' :: '(' :: (c.text ++ ')' :: ' ' :: braces text body)

theorem toList_listSource (ss : List Stmt) : (listSource ss).toList = items text [' '] ss := by
  induction ss with
  | nil => rfl
  | cons s ss ih => simp [listSource, items, ih, text]

theorem toList_bracedSource (ss : List Stmt) :
    (bracedSource (listSource ss)).toList = braces text ss := by
  simp [bracedSource, braces, toList_listSource]

/-- The atom that a statement begins with; a block begins with none. -/
def atom : Stmt → String
  | block .. => ""
  | ifThen .. | ifElse .. => "if"
  | loop .. => "while"
  | declare _ ty _ _ => ty.name
  | ret .. => "return"
  | print .. => "print"
  | assign _ e _ | eval _ e => e.atom

/-- What stands after the atom. -/
def tail : Stmt → List Char
  | block _ body => braces text body
  | ifThen _ c t => guarded c t
  | ifElse _ c t f => guarded c t ++ (" else ".toList ++ braces text f)
  | loop _ c body => guarded c body
  | declare _ _ name init => ' ' :: (name.toList ++ Expr.ending " = ".toList init)
  | ret _ v => Expr.ending " ".toList v
  | print _ v => '(' :: (v.text ++ [')', ';'])
  | assign _ t v => t.tail ++ Expr.ending " = ".toList (some v)
  | eval _ v => v.tail ++ Expr.ending " = ".toList none

theorem text_eq (s : Stmt) : s.text = s.atom.toList ++ s.tail := by
  cases s with
  | block => simp [text, source, atom, tail, toList_bracedSource]
  | ifThen | ifElse | loop =>
    simp [text, source, atom, tail, guarded, toList_bracedSource, Expr.text]
  | declare _ _ _ init => cases init <;> simp [text, source, atom, tail, Expr.ending, Expr.text]
  | ret _ v => cases v <;> simp [text, source, atom, tail, Expr.ending, Expr.text]
  | print => simp [text, source, atom, tail, Expr.text]
  | assign _ t v =>
    rw [atom, tail, ← List.append_assoc, ← Expr.text_eq]
    simp [text, source, Expr.ending, Expr.text]
  | eval _ v =>
    rw [atom, tail, ← List.append_assoc, ← Expr.text_eq]
    simp [text, source, Expr.ending, Expr.text]

theorem atom_chars {s : Stmt} (h : s.spelled = true) :
    ∀ c ∈ s.atom.toList, isAtomChar c = true := by
  cases s with
  | block => exact List.forall_mem_nil _
  | ifThen | ifElse => exact atom_reserved "if" (by decide)
  | loop => exact atom_reserved "while" (by decide)
  | declare =>
    obtain ⟨h, -⟩ := Bool.and_eq_true_iff.mp h
    obtain ⟨hty, -⟩ := Bool.and_eq_true_iff.mp h
    exact fun c hc => atomChar_of_wordChar (Ty.word_of_spelled hty c hc)
  | ret => exact atom_reserved "return" (by decide)
  | print => exact atom_reserved "print" (by decide)
  | assign => exact Expr.atom_chars (Bool.and_eq_true_iff.mp h).1
  | eval => exact Expr.atom_chars h

theorem stops_tail (s : Stmt) (r : List Char) : Stops isAtomChar (s.tail ++ r) := by
  cases s with
  | ret _ v => exact (Expr.ends_ending rfl v r).stops
  | assign _ t v =>
    rw [tail, List.append_assoc]
    exact t.stops_tail (Expr.ends_ending rfl _ r)
  | eval _ v =>
    rw [tail, List.append_assoc]
    exact v.stops_tail (Expr.ends_ending rfl _ r)
  | _ => exact stops_cons.mpr (by decide)

/-! ### Kinds -/

/-- The kinds of statements that the beginning of a text tells apart. -/
inductive Kind where
  | block
  | branch
  | loop
  | declare
  | ret
  | print
  | expr

def kind : Stmt → Kind
  | .block .. => .block
  | .ifThen .. | .ifElse .. => .branch
  | .loop .. => .loop
  | .declare .. => .declare
  | .ret .. => .ret
  | .print .. => .print
  | .assign .. | .eval .. => .expr

/-- The kind of a statement without a keyword, from what stands after its atom. -/
def Kind.ofNext : List Char → Kind
  | '\x7b' :: _ => .block
  | ' ' :: c :: _ => if isWordChar c then .declare else .expr
  | _ => .expr

/-- The kind of a statement, from its atom and what stands after it. -/
def Kind.of (atom : String) (tail : List Char) : Kind :=
  if atom = "if" then .branch
  else if atom = "while" then .loop
  else if atom = "return" then .ret
  else if atom = "print" then .print
  -- the name after `new` is the class to create, not a variable of the type before it
  else if atom = "new" then .expr
  else Kind.ofNext tail

/-- The keywords of statements. -/
def words : List String := ["if", "else", "while", "return", "print"]

theorem Kind.of_notMem {atom : String} (h : atom ∉ words) (tail : List Char) :
    Kind.of atom tail = if atom = "new" then .expr else Kind.ofNext tail := by
  have hne : ∀ w ∈ words, atom ≠ w := fun w hw heq => h (heq ▸ hw)
  unfold Kind.of
  rw [if_neg (hne "if" (by decide)), if_neg (hne "while" (by decide)),
    if_neg (hne "return" (by decide)), if_neg (hne "print" (by decide))]

theorem name_notMem_words {t : Ty} (h : t.spelled = true) : t.name ∉ words := by
  have hsub : ∀ w ∈ words, w ∈ keywords := by decide
  exact fun hmem => Ty.name_notMem h (hsub _ hmem)

theorem atom_notMem_words {e : Expr} (h : e.spelled = true) : e.atom ∉ words := by
  have hsub : ∀ w ∈ words, w ∈ reservedWords := by decide
  cases e with
  | number m n =>
    obtain ⟨c, cs, heq, hc⟩ := start_number n.toInt
    exact fun hmem => number_notMem heq hc (hsub _ hmem)
  | bool m b =>
    rw [Expr.atom]
    cases b <;> decide
  | var =>
    obtain ⟨ho, hx⟩ := Bool.and_eq_true_iff.mp h
    exact fun hmem => qualified_notMem ho hx (hsub _ hmem)
  | call =>
    obtain ⟨h, -⟩ := Bool.and_eq_true_iff.mp h
    obtain ⟨ho, hx⟩ := Bool.and_eq_true_iff.mp h
    exact fun hmem => qualified_notMem ho hx (hsub _ hmem)
  | this | binary | unary | create =>
    rw [Expr.atom]
    decide

theorem Kind.of_expr {e : Expr} (h : e.spelled = true) (v : Option Expr) (r : List Char) :
    Kind.of e.atom (e.tail ++ (Expr.ending " = ".toList v ++ r)) = .expr := by
  rw [Kind.of_notMem (atom_notMem_words h)]
  by_cases hnew : e.atom = "new"
  · rw [if_pos hnew]
  · rw [if_neg hnew]
    cases e with
    | number | bool | this | var => cases v <;> rfl
    | binary =>
      rw [Expr.tail, Expr.text_binary]
      rfl
    | unary =>
      rw [Expr.tail, Expr.text_unary]
      rfl
    | call => rfl
    | create => exact absurd rfl hnew

theorem kind_eq_of {s : Stmt} (h : s.spelled = true) (r : List Char) :
    Kind.of s.atom (s.tail ++ r) = s.kind := by
  cases s with
  | declare _ ty x init =>
    obtain ⟨h, -⟩ := Bool.and_eq_true_iff.mp h
    obtain ⟨hty, hx⟩ := Bool.and_eq_true_iff.mp h
    obtain ⟨c, cs, heq, -⟩ := start_of_isName hx
    have hc : isWordChar c = true := word_of_isName hx c (heq ▸ List.mem_cons_self ..)
    have hnew : ty.name ≠ "new" := fun heq => Ty.name_notMem hty (heq ▸ by decide)
    rw [atom, Kind.of_notMem (name_notMem_words hty), if_neg hnew]
    simp [tail, heq, Kind.ofNext, hc, kind]
  | assign _ t v =>
    rw [tail, List.append_assoc]
    exact Kind.of_expr (Bool.and_eq_true_iff.mp h).1 (some v) r
  | eval _ v =>
    rw [tail, List.append_assoc]
    exact Kind.of_expr h none r
  | _ => rfl

/-- Statements whose texts go on to be the same have the same kind, atom and tail. -/
theorem eq_of_text {s s' : Stmt} {r r' : List Char} (hs : s.spelled = true)
    (hs' : s'.spelled = true) (h : s.text ++ r = s'.text ++ r') :
    s.kind = s'.kind ∧ s.atom = s'.atom ∧ s.tail ++ r = s'.tail ++ r' := by
  rw [text_eq, text_eq, List.append_assoc, List.append_assoc] at h
  obtain ⟨hatom, htail⟩ := run_append_inj (atom_chars hs) (atom_chars hs') (s.stops_tail r)
    (s'.stops_tail r') h
  have hatom := String.toList_inj.mp hatom
  refine ⟨?_, hatom, htail⟩
  rw [← kind_eq_of hs r, ← kind_eq_of hs' r', hatom, htail]

/-! ### Lists of statements -/

/-- The text does not go on with an alternative. -/
def NoElse (r : List Char) : Prop := ∀ t, r ≠ " else ".toList ++ t

theorem noElse_nil : NoElse [] := nofun

theorem text_ne_else {s : Stmt} (h : s.spelled = true) (r t : List Char) :
    s.text ++ r ≠ "else".toList ++ ' ' :: t := by
  intro heq
  rw [text_eq, List.append_assoc] at heq
  obtain ⟨hatom, -⟩ := run_append_inj (atom_chars h) (atom_reserved "else" (by decide))
    (s.stops_tail r) (stops_cons.mpr (by decide)) heq
  have hatom := String.toList_inj.mp hatom
  have hword : s.atom ∈ words := hatom ▸ (by decide)
  cases s with
  | declare =>
    obtain ⟨h, -⟩ := Bool.and_eq_true_iff.mp h
    exact name_notMem_words (Bool.and_eq_true_iff.mp h).1 hword
  | assign => exact atom_notMem_words (Bool.and_eq_true_iff.mp h).1 hword
  | eval => exact atom_notMem_words h hword
  | _ =>
    rw [atom] at hatom
    exact absurd hatom (by decide)

theorem text_ne_close {s : Stmt} (h : s.spelled = true) (r t : List Char) :
    s.text ++ r ≠ '\x7d' :: t := by
  rw [text_eq, List.append_assoc]
  cases s with
  | declare =>
    obtain ⟨h, -⟩ := Bool.and_eq_true_iff.mp h
    exact Ty.name_append_ne (Bool.and_eq_true_iff.mp h).1 (by decide) _ t
  | assign _ e v =>
    rw [atom, tail, List.append_assoc, ← List.append_assoc, ← Expr.text_eq]
    exact Expr.text_append_ne (Bool.and_eq_true_iff.mp h).1 (by decide) _ t
  | eval _ e =>
    rw [atom, tail, List.append_assoc, ← List.append_assoc, ← Expr.text_eq]
    exact Expr.text_append_ne h (by decide) _ t
  | _ => simp [atom, tail, braces]

theorem told_body {body body' : List Stmt} {r r' : List Char}
    (htold : ∀ s ∈ body, Told text plain spelled NoElse s) (hok : allSpelled body = true)
    (hok' : allSpelled body' = true) (h : braces text body ++ r = braces text body' ++ r') :
    plainList body = plainList body' ∧ r = r' := by
  have hclose : ∀ t, NoElse (' ' :: '\x7d' :: t) := fun t t' heq =>
    absurd (List.cons.inj (List.cons.inj heq).2).1 (by decide)
  have hitem : ∀ (s : Stmt) r, s.spelled = true → NoElse (' ' :: (s.text ++ r)) :=
    fun s r hs t heq => text_ne_else hs r t (List.cons.inj heq).2
  rw [plainList_eq_map, plainList_eq_map]
  exact told_braces hclose hitem (fun s r t hs => text_ne_close hs r t) htold
    (allSpelled_iff.mp hok) (allSpelled_iff.mp hok') h

theorem told_guarded {c c' : Expr} {body body' : List Stmt} {r r' : List Char}
    (hc : c.spelled = true) (hc' : c'.spelled = true)
    (htold : ∀ s ∈ body, Told text plain spelled NoElse s) (hok : allSpelled body = true)
    (hok' : allSpelled body' = true) (h : guarded c body ++ r = guarded c' body' ++ r') :
    c.plain = c'.plain ∧ plainList body = plainList body' ∧ r = r' := by
  simp only [guarded, List.cons_append, List.append_assoc, List.cons.injEq, true_and] at h
  obtain ⟨hcc, h⟩ := Expr.told hc hc' (Expr.ends_cons.mpr (by decide))
    (Expr.ends_cons.mpr (by decide)) h
  exact ⟨hcc, told_body htold hok hok' (List.cons.inj (List.cons.inj h).2).2⟩

/-! ### The statement from its text -/

/-- An expression statement is told by what stands after its first expression. -/
theorem told_expr (v v' : Option Expr) {e e' : Expr} {r r' : List Char} (he : e.spelled = true)
    (he' : e'.spelled = true) (hv : v.all Expr.spelled = true) (hv' : v'.all Expr.spelled = true)
    (hatom : e.atom = e'.atom) (htail : e.tail ++ Expr.ending " = ".toList v ++ r =
      e'.tail ++ Expr.ending " = ".toList v' ++ r') :
    e.plain = e'.plain ∧ v.map Expr.plain = v'.map Expr.plain ∧ r = r' := by
  have h : e.text ++ (Expr.ending " = ".toList v ++ r) =
      e'.text ++ (Expr.ending " = ".toList v' ++ r') := by
    rw [List.append_assoc, List.append_assoc] at htail
    rw [Expr.text_eq, Expr.text_eq, List.append_assoc, List.append_assoc, hatom, htail]
  obtain ⟨hee, h⟩ := Expr.told he he' (Expr.ends_ending rfl v r) (Expr.ends_ending rfl v' r') h
  exact ⟨hee, Expr.told_ending rfl hv hv' h⟩

mutual

/-- **A statement is told by its text.** -/
theorem told : ∀ {s : Stmt}, s.spelled = true → Told text plain spelled NoElse s
  | .block p body, hs => by
    intro s' r r' hs' hr hr' h
    obtain ⟨hkind, -, htail⟩ := eq_of_text hs hs' h
    cases s' with
    | block p' body' =>
      obtain ⟨hbody, h⟩ := told_body (told_all hs) hs hs' htail
      exact ⟨by rw [plain, plain, hbody], h⟩
    | _ => cases hkind
  | .ifThen p c t, hs => by
    intro s' r r' hs' hr hr' h
    obtain ⟨hkind, -, htail⟩ := eq_of_text hs hs' h
    obtain ⟨hc, ht⟩ := Bool.and_eq_true_iff.mp hs
    cases s' with
    | ifThen p' c' t' =>
      obtain ⟨hc', ht'⟩ := Bool.and_eq_true_iff.mp hs'
      obtain ⟨hcc, htt, h⟩ := told_guarded hc hc' (told_all ht) ht ht' htail
      exact ⟨by rw [plain, plain, hcc, htt], h⟩
    | ifElse p' c' t' f' =>
      obtain ⟨hs', -⟩ := Bool.and_eq_true_iff.mp hs'
      obtain ⟨hc', ht'⟩ := Bool.and_eq_true_iff.mp hs'
      rw [tail, tail, List.append_assoc, List.append_assoc] at htail
      -- the alternative would have to follow the branch that has none
      obtain ⟨-, -, h⟩ := told_guarded hc hc' (told_all ht) ht ht' htail
      exact absurd h (hr _)
    | _ => cases hkind
  | .ifElse p c t f, hs => by
    intro s' r r' hs' hr hr' h
    obtain ⟨hkind, -, htail⟩ := eq_of_text hs hs' h
    obtain ⟨hs, hf⟩ := Bool.and_eq_true_iff.mp hs
    obtain ⟨hc, ht⟩ := Bool.and_eq_true_iff.mp hs
    cases s' with
    | ifThen p' c' t' =>
      obtain ⟨hc', ht'⟩ := Bool.and_eq_true_iff.mp hs'
      rw [tail, tail, List.append_assoc, List.append_assoc] at htail
      obtain ⟨-, -, h⟩ := told_guarded hc hc' (told_all ht) ht ht' htail
      exact absurd h.symm (hr' _)
    | ifElse p' c' t' f' =>
      obtain ⟨hs', hf'⟩ := Bool.and_eq_true_iff.mp hs'
      obtain ⟨hc', ht'⟩ := Bool.and_eq_true_iff.mp hs'
      rw [tail, tail, List.append_assoc, List.append_assoc, List.append_assoc,
        List.append_assoc] at htail
      obtain ⟨hcc, htt, h⟩ := told_guarded hc hc' (told_all ht) ht ht' htail
      obtain ⟨hff, h⟩ := told_body (told_all hf) hf hf' (List.append_cancel_left h)
      exact ⟨by rw [plain, plain, hcc, htt, hff], h⟩
    | _ => cases hkind
  | .loop p c body, hs => by
    intro s' r r' hs' hr hr' h
    obtain ⟨hkind, -, htail⟩ := eq_of_text hs hs' h
    cases s' with
    | loop p' c' body' =>
      obtain ⟨hc, hbody⟩ := Bool.and_eq_true_iff.mp hs
      obtain ⟨hc', hbody'⟩ := Bool.and_eq_true_iff.mp hs'
      obtain ⟨hcc, hbb, h⟩ := told_guarded hc hc' (told_all hbody) hbody hbody' htail
      exact ⟨by rw [plain, plain, hcc, hbb], h⟩
    | _ => cases hkind
  | .assign p t v, hs => by
    intro s' r r' hs' hr hr' h
    obtain ⟨hkind, hatom, htail⟩ := eq_of_text hs hs' h
    obtain ⟨ht, hv⟩ := Bool.and_eq_true_iff.mp hs
    cases s' with
    | assign p' t' v' =>
      obtain ⟨ht', hv'⟩ := Bool.and_eq_true_iff.mp hs'
      obtain ⟨htt, hvv, h⟩ := told_expr (some v) (some v') ht ht' hv hv' hatom htail
      exact ⟨by rw [plain, plain, htt, Option.some.inj hvv], h⟩
    | eval p' v' =>
      obtain ⟨-, hvv, -⟩ := told_expr (some v) none ht hs' hv rfl hatom htail
      cases hvv
    | _ => cases hkind
  | .eval p v, hs => by
    intro s' r r' hs' hr hr' h
    obtain ⟨hkind, hatom, htail⟩ := eq_of_text hs hs' h
    have hv : v.spelled = true := hs
    cases s' with
    | assign p' t' v' =>
      obtain ⟨ht', hv'⟩ := Bool.and_eq_true_iff.mp hs'
      obtain ⟨-, hvv, -⟩ := told_expr none (some v') hv ht' rfl hv' hatom htail
      cases hvv
    | eval p' v' =>
      obtain ⟨hvv, -, h⟩ := told_expr none none hv hs' rfl rfl hatom htail
      exact ⟨by rw [plain, plain, hvv], h⟩
    | _ => cases hkind
  | .declare p ty x init, hs => by
    intro s' r r' hs' hr hr' h
    obtain ⟨hkind, -, -⟩ := eq_of_text hs hs' h
    cases s' with
    | declare p' ty' x' init' =>
      obtain ⟨hs, hinit⟩ := Bool.and_eq_true_iff.mp hs
      obtain ⟨hty, hx⟩ := Bool.and_eq_true_iff.mp hs
      obtain ⟨hs', hinit'⟩ := Bool.and_eq_true_iff.mp hs'
      obtain ⟨hty', hx'⟩ := Bool.and_eq_true_iff.mp hs'
      simp only [text_eq, atom, tail, List.cons_append, List.append_assoc] at h
      obtain ⟨rfl, rfl, hrest⟩ := typed_inj hty hx hty' hx' (Expr.ends_ending rfl init r).stops.word
        (Expr.ends_ending rfl init' r').stops.word h
      obtain ⟨hii, h⟩ := Expr.told_ending rfl hinit hinit' hrest
      exact ⟨by rw [plain, plain, hii], h⟩
    | _ => cases hkind
  | .ret p v, hs => by
    intro s' r r' hs' hr hr' h
    obtain ⟨hkind, -, htail⟩ := eq_of_text hs hs' h
    cases s' with
    | ret p' v' =>
      obtain ⟨hvv, h⟩ := Expr.told_ending rfl hs hs' htail
      exact ⟨by rw [plain, plain, hvv], h⟩
    | _ => cases hkind
  | .print p v, hs => by
    intro s' r r' hs' hr hr' h
    obtain ⟨hkind, -, htail⟩ := eq_of_text hs hs' h
    have hv : v.spelled = true := hs
    cases s' with
    | print p' v' =>
      have hv' : v'.spelled = true := hs'
      simp only [tail, List.cons_append, List.nil_append, List.append_assoc, List.cons.injEq,
        true_and] at htail
      obtain ⟨hvv, h⟩ := Expr.told hv hv' (Expr.ends_cons.mpr (by decide))
        (Expr.ends_cons.mpr (by decide)) htail
      exact ⟨by rw [plain, plain, hvv], (List.cons.inj (List.cons.inj h).2).2⟩
    | _ => cases hkind

theorem told_all : ∀ {ss : List Stmt}, allSpelled ss = true →
    ∀ s ∈ ss, Told text plain spelled NoElse s
  | [], _ => List.forall_mem_nil _
  | s :: ss, h => by
    obtain ⟨hs, hss⟩ := Bool.and_eq_true_iff.mp h
    exact List.forall_mem_cons.mpr ⟨told hs, told_all hss⟩

end

end Stmt

end ClassLang
