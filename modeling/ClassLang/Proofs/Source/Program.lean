import ClassLang.Proofs.Source.Stmt

/-!
# The source text of a program

Members and classes end with a semicolon or a brace, so their texts tell them whatever follows.
With the expressions and statements this makes the source text of a program tell all that the
program says (`source_tells_tree`): two trees have the same text only if they differ in nothing but
their places and slots.
-/

namespace ClassLang

/-- Nothing is asked of what follows. -/
def Anything (_ : List Char) : Prop := True

/-! ### Parameters and statements of a method -/

def Param.text (p : Param) : List Char := p.ty.name.toList ++ ' ' :: p.name.toList

def Param.spelled (p : Param) : Bool := p.ty.spelled && isName p.name

theorem Param.told {p : Param} (hp : p.spelled = true) :
    Told text id spelled (Stops isWordChar) p := by
  intro p' r r' hp' hr hr' h
  obtain ⟨hty, hx⟩ := Bool.and_eq_true_iff.mp hp
  obtain ⟨hty', hx'⟩ := Bool.and_eq_true_iff.mp hp'
  simp only [text, List.append_assoc, List.cons_append] at h
  obtain ⟨htt, hxx, h⟩ := typed_inj hty hx hty' hx' hr hr' h
  exact ⟨congrArg₂ Param.mk htt hxx, h⟩

namespace Routine

def text (r : Routine) : List Char :=
  '(' :: (commas Param.text r.params ++ ')' :: ' ' :: braces Stmt.text r.body)

def spelled (r : Routine) : Bool := r.params.all Param.spelled && Stmt.allSpelled r.body

theorem toList_source (r : Routine) : r.source.toList = r.text := by
  have hparam : Param.text = fun p => p.ty.name.toList ++ ' ' :: p.name.toList := rfl
  simp [source, text, Stmt.blockSource, Stmt.toList_bracedSource, commas, Function.comp_def, hparam]

theorem told {f : Routine} (hf : f.spelled = true) : Told text plain spelled Anything f := by
  intro f' r r' hf' _ _ h
  obtain ⟨hps, hbody⟩ := Bool.and_eq_true_iff.mp hf
  obtain ⟨hps', hbody'⟩ := Bool.and_eq_true_iff.mp hf'
  simp only [text, List.cons_append, List.append_assoc, List.cons.injEq, true_and] at h
  have hfirst : ∀ (p : Param) r t, p.spelled = true → p.text ++ r ≠ ')' :: t := by
    intro p r t hp
    rw [Param.text, List.append_assoc]
    exact Ty.name_append_ne (Bool.and_eq_true_iff.mp hp).1 (by decide) _ t
  obtain ⟨hpp, h⟩ := told_commas (fun t => stops_cons.mpr (by decide))
    (fun t => stops_cons.mpr (by decide)) hfirst
    (fun p hp => Param.told (List.all_eq_true.mp hps p hp)) (List.all_eq_true.mp hps)
    (List.all_eq_true.mp hps') h
  obtain ⟨hbb, h⟩ := Stmt.told_body (Stmt.told_all hbody) hbody hbody' (List.cons.inj h).2
  rw [List.map_id, List.map_id] at hpp
  exact ⟨by rw [plain, plain, hpp, hbb], h⟩

end Routine

/-! ### Members -/

namespace Member

def text (m : Member) : List Char := m.source.toList

def spelled : Member → Bool
  | field _ ty x => ty.spelled && isName x
  | method ret f r => ret.spelled && isName f && r.spelled
  | constructor r => r.spelled

theorem text_field (p : Span) (ty : Ty) (x : String) :
    (field p ty x).text = ty.name.toList ++ ' ' :: (x.toList ++ [';']) := by
  simp [text, source]

theorem text_method (ret : Ty) (f : String) (r : Routine) :
    (method ret f r).text = ret.name.toList ++ ' ' :: (f.toList ++ r.text) := by
  simp [text, source, Routine.toList_source]

theorem text_constructor (r : Routine) :
    (constructor r).text = constructorName.toList ++ r.text := by
  simp [text, source, Routine.toList_source]

/-- A constructor does not begin like a member with a type. -/
theorem typed_ne_constructor {t : Ty} (ht : t.spelled = true) (f : Routine) (r r' : List Char) :
    t.name.toList ++ ' ' :: r ≠ constructorName.toList ++ (f.text ++ r') := by
  intro heq
  obtain ⟨hname, -⟩ := run_append_inj (Ty.word_of_spelled ht) (List.all_eq_true.mp (by decide))
    (stops_cons.mpr (by decide)) (stops_cons.mpr (by decide)) heq
  exact Ty.name_notMem ht (String.toList_inj.mp hname ▸ by decide)

theorem stops_routine (f : Routine) (r : List Char) : Stops isWordChar (f.text ++ r) :=
  stops_cons.mpr (by decide)

theorem told {m : Member} (hm : m.spelled = true) : Told text plain spelled Anything m := by
  intro m' r r' hm' _ _ h
  cases m with
  | field p ty x =>
    obtain ⟨hty, hx⟩ := Bool.and_eq_true_iff.mp hm
    cases m' with
    | field p' ty' x' =>
      obtain ⟨hty', hx'⟩ := Bool.and_eq_true_iff.mp hm'
      simp only [text_field, List.append_assoc, List.cons_append, List.nil_append] at h
      obtain ⟨rfl, rfl, hrest⟩ := typed_inj hty hx hty' hx' (stops_cons.mpr (by decide))
        (stops_cons.mpr (by decide)) h
      exact ⟨rfl, (List.cons.inj hrest).2⟩
    | method ret' f' q' =>
      obtain ⟨hm', -⟩ := Bool.and_eq_true_iff.mp hm'
      obtain ⟨hret', hf'⟩ := Bool.and_eq_true_iff.mp hm'
      simp only [text_field, text_method, List.append_assoc, List.cons_append, List.nil_append] at h
      obtain ⟨-, -, hrest⟩ := typed_inj hty hx hret' hf' (stops_cons.mpr (by decide))
        (stops_routine q' r') h
      exact absurd (List.cons.inj hrest).1 (by decide)
    | constructor q' =>
      simp only [text_field, text_constructor, List.append_assoc, List.cons_append] at h
      exact absurd h (typed_ne_constructor hty q' _ r')
  | method ret f q =>
    obtain ⟨hm, hq⟩ := Bool.and_eq_true_iff.mp hm
    obtain ⟨hret, hf⟩ := Bool.and_eq_true_iff.mp hm
    cases m' with
    | field p' ty' x' =>
      obtain ⟨hty', hx'⟩ := Bool.and_eq_true_iff.mp hm'
      simp only [text_field, text_method, List.append_assoc, List.cons_append, List.nil_append] at h
      obtain ⟨-, -, hrest⟩ := typed_inj hret hf hty' hx' (stops_routine q r)
        (stops_cons.mpr (by decide)) h
      exact absurd (List.cons.inj hrest).1 (by decide)
    | method ret' f' q' =>
      obtain ⟨hm', hq'⟩ := Bool.and_eq_true_iff.mp hm'
      obtain ⟨hret', hf'⟩ := Bool.and_eq_true_iff.mp hm'
      simp only [text_method, List.append_assoc, List.cons_append] at h
      obtain ⟨rfl, rfl, hrest⟩ := typed_inj hret hf hret' hf' (stops_routine q r)
        (stops_routine q' r') h
      obtain ⟨hqq, hr⟩ := Routine.told hq hq' trivial trivial hrest
      exact ⟨by rw [plain, plain, hqq], hr⟩
    | constructor q' =>
      simp only [text_method, text_constructor, List.append_assoc, List.cons_append] at h
      exact absurd h (typed_ne_constructor hret q' _ r')
  | constructor q =>
    cases m' with
    | field p' ty' x' =>
      simp only [text_field, text_constructor, List.append_assoc, List.cons_append] at h
      exact absurd h.symm (typed_ne_constructor (Bool.and_eq_true_iff.mp hm').1 q _ r)
    | method ret' f' q' =>
      obtain ⟨hm', -⟩ := Bool.and_eq_true_iff.mp hm'
      simp only [text_method, text_constructor, List.append_assoc, List.cons_append] at h
      exact absurd h.symm (typed_ne_constructor (Bool.and_eq_true_iff.mp hm').1 q _ r)
    | constructor q' =>
      rw [text_constructor, text_constructor, List.append_assoc, List.append_assoc] at h
      obtain ⟨hqq, hr⟩ := Routine.told hm hm' trivial trivial (List.append_cancel_left h)
      exact ⟨by rw [plain, plain, hqq], hr⟩

theorem text_ne_close {m : Member} (hm : m.spelled = true) (r t : List Char) :
    m.text ++ r ≠ '\x7d' :: t := by
  cases m with
  | field =>
    rw [text_field, List.append_assoc]
    exact Ty.name_append_ne (Bool.and_eq_true_iff.mp hm).1 (by decide) _ t
  | method =>
    obtain ⟨hm, -⟩ := Bool.and_eq_true_iff.mp hm
    rw [text_method, List.append_assoc]
    exact Ty.name_append_ne (Bool.and_eq_true_iff.mp hm).1 (by decide) _ t
  | constructor =>
    rw [text_constructor]
    exact fun heq => absurd (List.cons.inj heq).1 (by decide)

end Member

/-! ### Classes -/

namespace ClassDecl

def text (c : ClassDecl) : List Char := c.source.toList

def spelled (c : ClassDecl) : Bool :=
  isName c.name && c.parent.all isName && c.members.all Member.spelled

/-- What names the class that a class extends. -/
def parentText (p : Option String) : List Char := p.elim [] fun q => " extends ".toList ++ q.toList

theorem flatMap_members (ms : List Member) :
    (ms.map fun m => " " ++ m.source).flatMap String.toList = items Member.text [' '] ms := by
  have htext : Member.text = fun m => m.source.toList := rfl
  simp [items, List.flatMap_map, htext]

theorem text_eq (c : ClassDecl) : c.text = "class ".toList ++ (c.name.toList ++
    (parentText c.parent ++ ' ' :: braces Member.text c.members)) := by
  cases hparent : c.parent with
  | none => simp [text, source, hparent, parentText, braces, flatMap_members]
  | some p => simp [text, source, hparent, parentText, braces, flatMap_members]

theorem stops_parent (p : Option String) (r : List Char) :
    Stops isWordChar (parentText p ++ ' ' :: r) := by
  cases p <;> exact stops_cons.mpr (by decide)

theorem parent_inj {p p' : Option String} {r r' : List Char} (hp : p.all isName = true)
    (hp' : p'.all isName = true)
    (h : parentText p ++ ' ' :: '\x7b' :: r = parentText p' ++ ' ' :: '\x7b' :: r') :
    p = p' ∧ '\x7b' :: r = '\x7b' :: r' := by
  cases p with
  | none =>
    cases p' with
    | none => exact ⟨rfl, (List.cons.inj h).2⟩
    | some q' => simp [parentText] at h
  | some q =>
    cases p' with
    | none => simp [parentText] at h
    | some q' =>
      simp only [parentText, Option.elim_some, List.append_assoc] at h
      obtain ⟨hqq, h⟩ := run_append_inj (word_of_isName hp) (word_of_isName hp')
        (stops_cons.mpr (by decide)) (stops_cons.mpr (by decide)) (List.append_cancel_left h)
      exact ⟨congrArg some (String.toList_inj.mp hqq), (List.cons.inj h).2⟩

theorem told {c : ClassDecl} (hc : c.spelled = true) : Told text plain spelled Anything c := by
  intro c' r r' hc' _ _ h
  obtain ⟨hc, hms⟩ := Bool.and_eq_true_iff.mp hc
  obtain ⟨hname, hparent⟩ := Bool.and_eq_true_iff.mp hc
  obtain ⟨hc', hms'⟩ := Bool.and_eq_true_iff.mp hc'
  obtain ⟨hname', hparent'⟩ := Bool.and_eq_true_iff.mp hc'
  have hms := List.all_eq_true.mp hms
  have hms' := List.all_eq_true.mp hms'
  simp only [text_eq, List.append_assoc, List.cons_append, List.append_cancel_left_eq] at h
  obtain ⟨hnn, h⟩ := run_append_inj (word_of_isName hname) (word_of_isName hname')
    (stops_parent c.parent _) (stops_parent c'.parent _) h
  obtain ⟨hpp, h⟩ := parent_inj hparent hparent' h
  obtain ⟨hmm, h⟩ := told_braces (fun _ => trivial) (fun _ _ _ => trivial)
    (fun m r t hm => Member.text_ne_close hm r t) (fun m hm => Member.told (hms m hm)) hms hms' h
  exact ⟨by rw [plain, plain, String.toList_inj.mp hnn, hpp, hmm], h⟩

end ClassDecl

/-! ### Programs -/

namespace Program

def text (p : Program) : List Char := p.source.toList

/-- All names in the program are allowed ones (`isName`). -/
def spelled (p : Program) : Bool := p.classes.all ClassDecl.spelled

theorem text_eq (p : Program) : p.text = ['\n'].intercalate (p.classes.map ClassDecl.text) := by
  have htext : ClassDecl.text = fun c => c.source.toList := rfl
  simp [text, source, Function.comp_def, htext]

theorem told {p : Program} (hp : p.spelled = true) : Told text plain spelled (· = []) p := by
  intro p' r r' hp' hr hr' h
  have hlisted : Listed ClassDecl.text ClassDecl.spelled Anything (· = []) ['\n'] :=
    ⟨fun _ _ => trivial, fun _ _ _ => trivial, fun _ _ _ => List.cons_ne_nil _ _⟩
  have hfirst : ∀ (c : ClassDecl) r, c.spelled = true → ¬ c.text ++ r = [] := by
    intro c r _
    rw [ClassDecl.text_eq]
    exact List.cons_ne_nil _ _
  have hcs := List.all_eq_true.mp hp
  rw [text_eq, text_eq] at h
  obtain ⟨hcc, h⟩ := told_intercalate hlisted hfirst (fun c hc => ClassDecl.told (hcs c hc)) hcs
    (List.all_eq_true.mp hp') hr hr' h
  exact ⟨by rw [plain, plain, hcc], h⟩

end Program

/-! ### The tree from its text -/

/-- **The source text tells the tree.** Two programs, two statements or two expressions have the
same text exactly if they differ in nothing but places and slots. -/
theorem source_tells_tree :
    (∀ p q : Program, p.spelled = true → q.spelled = true →
      (p.source = q.source ↔ p.plain = q.plain)) ∧
    (∀ s t : Stmt, s.spelled = true → t.spelled = true →
      (s.source = t.source ↔ s.plain = t.plain)) ∧
    (∀ e f : Expr, e.spelled = true → f.spelled = true →
      (e.source = f.source ↔ e.plain = f.plain)) := by
  refine ⟨fun p q hp hq => ⟨fun h => ?_, fun h => ?_⟩, fun s t hs ht => ⟨fun h => ?_, fun h => ?_⟩,
    fun e f he hf => ⟨fun h => ?_, fun h => ?_⟩⟩
  · exact (Program.told hp).eq_of_text hq rfl (congrArg String.toList h)
  · rw [← p.source_plain, h, q.source_plain]
  · exact (Stmt.told hs).eq_of_text ht Stmt.noElse_nil (congrArg String.toList h)
  · rw [← s.source_plain, h, t.source_plain]
  · exact (Expr.told he).eq_of_text hf Expr.ends_nil (congrArg String.toList h)
  · rw [← e.source_plain, h, f.source_plain]

/-- A class with a method that returns the difference of the expression and one. -/
def Program.decreasing (e : Expr) : Program :=
  ⟨[⟨.unknown, "A", some "B", [.method .int "f" ⟨.unknown, [⟨.int, "x"⟩],
    [.ret .unknown (some (.binary .unset .sub e (.number .unset 1)))], .empty⟩]⟩]⟩

/-- A negative number is not the negation of a number, and a branch without an alternative not one
with an empty alternative; but a name is the same with its type found. -/
theorem source_tells_negation :
    (Program.decreasing (.number .unset (-5))).source ≠
      (Program.decreasing (.unary .unset .neg (.number .unset 5))).source ∧
    (Stmt.ifThen .unknown (.bool .unset true) []).source ≠
      (Stmt.ifElse .unknown (.bool .unset true) [] []).source ∧
    (Expr.var .unset (some "this") "x" .empty .empty).source =
      (Expr.var ⟨.unknown, .filled .int⟩ (some "this") "x" .empty .empty).source := by
  obtain ⟨hprogram, hstmt, hexpr⟩ := source_tells_tree
  refine ⟨fun h => ?_, fun h => ?_, ?_⟩
  · have hplain := (hprogram _ _ (by decide) (by decide)).mp h
    simp [Program.decreasing, Program.plain, ClassDecl.plain, Member.plain, Routine.plain,
      Stmt.plainList, Stmt.plain, Expr.plain] at hplain
  · have hplain := (hstmt _ _ (by decide) (by decide)).mp h
    simp [Stmt.plain] at hplain
  · exact (hexpr _ _ (by decide) (by decide)).mpr rfl

end ClassLang
