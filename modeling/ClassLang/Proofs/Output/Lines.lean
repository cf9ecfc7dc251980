import ClassLang.Output.Stmt
import Mathlib.Data.List.Basic

/-!
# Statements are written line by line

What a statement writes is a list of lines. Neither the text before it nor the indentation it is
written at changes the lines, only the tabs in front of them; and if it cannot be written at one
place, it cannot be written anywhere, for the same reason (`Stmt.uniform_write`). This holds as long
as no name breaks a line (`OneLine`).
-/

namespace ClassLang

/-! ### Texts without line breaks -/

/-- The text stands on one line. -/
def OneLine (s : String) : Prop := '\n' ∉ s.toList

instance : DecidablePred OneLine := fun s => inferInstanceAs (Decidable ('\n' ∉ s.toList))

@[simp] theorem oneLine_append {s t : String} : OneLine (s ++ t) ↔ OneLine s ∧ OneLine t := by
  simp [OneLine]

@[simp] theorem oneLine_toString {s : String} : OneLine (toString s) ↔ OneLine s := Iff.rfl

theorem oneLine_intercalate {sep : String} (hsep : OneLine sep) : ∀ {l : List String},
    (∀ s ∈ l, OneLine s) → OneLine (sep.intercalate l)
  | [], _ => by
    rw [String.intercalate_nil]
    decide
  | [s], h => by
    rw [String.intercalate_singleton]
    exact h s (List.mem_cons_self ..)
  | s :: t :: l, h => by
    obtain ⟨hs, h⟩ := List.forall_mem_cons.mp h
    rw [String.intercalate_cons_cons]
    exact oneLine_append.mpr ⟨oneLine_append.mpr ⟨hs, hsep⟩, oneLine_intercalate hsep h⟩

theorem oneLine_ofNat (n : Nat) : OneLine n.repr := by
  rw [OneLine, Nat.repr_eq_ofList_toDigits, String.toList_ofList]
  intro h
  exact absurd (Nat.isDigit_of_mem_toDigits (by decide) (by decide) h) (by decide)

theorem oneLine_ofInt (n : Int) : OneLine (toString n) := by
  show OneLine n.repr
  rw [Int.repr_eq_if]
  split
  · exact oneLine_ofNat _
  · exact oneLine_append.mpr ⟨by decide, oneLine_ofNat _⟩

theorem oneLine_hex16 (n : UInt64) : OneLine (hex16 n) := by
  have hdigits : '\n' ∉ "0123456789abcdef".toList := by decide
  rw [OneLine, hex16, String.toList_ofList, List.mem_map]
  rintro ⟨i, -, hi⟩
  rw [hexDigit, List.getD_eq_getElem?_getD] at hi
  cases hget : "0123456789abcdef".toList[(n >>> (4 * i).toUInt64 &&& 15).toNat]? with
  | none =>
    rw [hget] at hi
    exact absurd hi (by decide)
  | some c =>
    rw [hget] at hi
    obtain rfl : c = '\n' := hi
    exact hdigits (List.mem_of_getElem? hget)

theorem Signature.oneLine_symbol {s : Signature} (h : OneLine s.name) : OneLine s.symbol := by
  rw [Signature.symbol, oneLine_append, oneLine_append]
  exact ⟨⟨h, by decide⟩, oneLine_hex16 _⟩

/-! ### The names of a statement -/

def VarBinding.names : VarBinding → List String
  | .scope => []
  | .member owner => [owner]

def Signature.names (s : Signature) : List String :=
  s.name :: (s.ret :: s.params).filterMap Ty.className?

def MethodBinding.names (b : MethodBinding) : List String := b.owner :: b.method.names

def Slot.names {α : Type} (names : α → List String) : Slot α → List String
  | .empty => []
  | .filled a => names a

mutual

/-- The names that stand in an expression, and those in what they were found to mean. -/
def Expr.names : Expr → List String
  | .number .. | .bool .. | .this _ => []
  | .var _ object name b ob =>
    object.toList ++ name :: (b.names VarBinding.names ++ ob.names VarBinding.names)
  | .binary _ _ l r => l.names ++ r.names
  | .unary _ _ x => x.names
  | .call _ object name args b ob =>
    object.toList ++ name :: (b.names MethodBinding.names ++ ob.names VarBinding.names ++
      Expr.namesList args)
  | .create _ cls args b => cls :: (b.names MethodBinding.names ++ Expr.namesList args)

def Expr.namesList : List Expr → List String
  | [] => []
  | e :: rest => e.names ++ Expr.namesList rest

end

def Expr.namesOption (e : Option Expr) : List String := e.toList.flatMap Expr.names

mutual

def Stmt.names : Stmt → List String
  | .block _ body => Stmt.namesList body
  | .ifThen _ c t => c.names ++ Stmt.namesList t
  | .ifElse _ c t f => c.names ++ (Stmt.namesList t ++ Stmt.namesList f)
  | .loop _ c body => c.names ++ Stmt.namesList body
  | .assign _ target value => target.names ++ value.names
  | .declare _ ty name init => ty.className?.toList ++ name :: Expr.namesOption init
  | .ret _ value => Expr.namesOption value
  | .print _ value => value.names
  | .eval _ value => value.names

def Stmt.namesList : List Stmt → List String
  | [] => []
  | s :: rest => s.names ++ Stmt.namesList rest

end

/-! ### The code of an expression stands on one line -/

theorem Ty.oneLine_code {τ : Ty} (h : ∀ x ∈ τ.className?.toList, OneLine x) : OneLine τ.code := by
  cases τ with
  | cls name =>
    have hname : OneLine name := h name (List.mem_singleton_self name)
    simp +decide [Ty.code, hname]
  | _ => decide

@[simp] theorem oneLine_varCode {name : String} : OneLine (varCode name) ↔ OneLine name := by
  simp +decide [varCode]

@[simp] theorem oneLine_memberCode {object name : String} :
    OneLine (memberCode object name) ↔ OneLine object ∧ OneLine name := by
  simp +decide [memberCode]

@[simp] theorem oneLine_objectCode {name : String} {b : Slot VarBinding} :
    OneLine (objectCode name b) ↔ OneLine name := by
  unfold objectCode
  split <;> simp +decide

theorem oneLine_useCode {object : Option String} {name : String} {b ob : Slot VarBinding}
    (ho : ∀ o ∈ object, OneLine o) (h : OneLine name) : OneLine (useCode object name b ob) := by
  cases object with
  | none => simpa [useCode] using h
  | some o => simpa [useCode, h] using ho o rfl

theorem oneLine_calleeCode {object : Option String} {ob : Slot VarBinding}
    (ho : ∀ o ∈ object, OneLine o) : OneLine (calleeCode object ob) := by
  cases object with
  | none => exact oneLine_varCode.mpr (by decide)
  | some o => simpa [calleeCode] using ho o rfl

theorem oneLine_applyCode {macroName : String} {target : MethodBinding} {args : List String}
    (hm : OneLine macroName) (ht : ∀ x ∈ target.names, OneLine x) (hargs : ∀ a ∈ args, OneLine a) :
    OneLine (applyCode macroName target args) := by
  have howner : OneLine target.owner := ht _ (by simp [MethodBinding.names])
  have hsymbol : OneLine target.method.symbol :=
    Signature.oneLine_symbol (ht _ (by simp [MethodBinding.names, Signature.names]))
  have hlist : OneLine (", ".intercalate args) := oneLine_intercalate (by decide) hargs
  simp +decide [applyCode, hm, howner, hsymbol, hlist]

theorem exists_of_bind_ok {ε α β : Type} {x : Except ε α} {f : α → Except ε β} {b : β}
    (h : x >>= f = .ok b) : ∃ a, x = .ok a ∧ f a = .ok b := by
  cases x with
  | error e => cases h
  | ok a => exact ⟨a, rfl, h⟩

mutual

theorem Expr.oneLine_code : ∀ {e : Expr} {code : String}, (∀ x ∈ e.names, OneLine x) →
    e.code = .ok code → OneLine code
  | .number _ n, _, _, rfl => oneLine_ofInt n.toInt
  | .bool _ b, _, _, rfl => by cases b <;> decide
  | .this _, _, _, rfl => by decide
  | .var _ o x b ob, _, h, rfl => by
    refine oneLine_useCode (fun o ho => h o ?_) (h x ?_)
    · exact List.mem_append_left _ (Option.mem_toList.mpr ho)
    · exact List.mem_append_right _ (List.mem_cons_self ..)
  | .binary _ op l r, _, h, hcode => by
    obtain ⟨hl, hr⟩ := List.forall_mem_append.mp h
    rw [Expr.code] at hcode
    obtain ⟨lc, hlc, hcode⟩ := exists_of_bind_ok hcode
    obtain ⟨rc, hrc, hcode⟩ := exists_of_bind_ok hcode
    obtain rfl := Except.ok.inj hcode
    have hop : OneLine op.symbol := by cases op <;> decide
    simp +decide [hop, Expr.oneLine_code hl hlc, Expr.oneLine_code hr hrc]
  | .unary _ op x, _, h, hcode => by
    rw [Expr.code] at hcode
    obtain ⟨xc, hxc, hcode⟩ := exists_of_bind_ok hcode
    obtain rfl := Except.ok.inj hcode
    have hop : OneLine op.symbol := by cases op <;> decide
    have hx : ∀ y ∈ x.names, OneLine y := h
    simp +decide [hop, Expr.oneLine_code hx hxc]
  | .call _ _ _ _ .empty _, _, _, hcode => by
    rw [Expr.code] at hcode
    cases hcode
  | .call _ o f args (.filled b) ob, _, h, hcode => by
    obtain ⟨ho, h⟩ := List.forall_mem_append.mp h
    obtain ⟨-, h⟩ := List.forall_mem_cons.mp h
    obtain ⟨hb, hargs⟩ := List.forall_mem_append.mp h
    obtain ⟨hb, -⟩ := List.forall_mem_append.mp hb
    rw [Expr.code] at hcode
    obtain ⟨codes, hcodes, hcode⟩ := exists_of_bind_ok hcode
    obtain rfl := Except.ok.inj hcode
    have hcallee : OneLine (calleeCode o ob) :=
      oneLine_calleeCode fun o' ho' => ho o' (Option.mem_toList.mpr ho')
    exact oneLine_applyCode (by decide) hb
      (List.forall_mem_cons.mpr ⟨hcallee, Expr.oneLine_codeList hargs hcodes⟩)
  | .create _ _ _ .empty, _, _, hcode => by
    rw [Expr.code] at hcode
    cases hcode
  | .create _ cls args (.filled b), _, h, hcode => by
    obtain ⟨-, h⟩ := List.forall_mem_cons.mp h
    obtain ⟨hb, hargs⟩ := List.forall_mem_append.mp h
    rw [Expr.code] at hcode
    obtain ⟨codes, hcodes, hcode⟩ := exists_of_bind_ok hcode
    obtain rfl := Except.ok.inj hcode
    exact oneLine_applyCode (by decide) hb (Expr.oneLine_codeList hargs hcodes)

theorem Expr.oneLine_codeList : ∀ {es : List Expr} {codes : List String},
    (∀ x ∈ Expr.namesList es, OneLine x) → Expr.codeList es = .ok codes → ∀ c ∈ codes, OneLine c
  | [], _, _, rfl => List.forall_mem_nil _
  | e :: es, _, h, hcode => by
    obtain ⟨he, hes⟩ := List.forall_mem_append.mp h
    rw [Expr.codeList] at hcode
    obtain ⟨code, hc, hcode⟩ := exists_of_bind_ok hcode
    obtain ⟨codes, hcs, hcode⟩ := exists_of_bind_ok hcode
    obtain rfl := Except.ok.inj hcode
    exact List.forall_mem_cons.mpr ⟨Expr.oneLine_code he hc, Expr.oneLine_codeList hes hcs⟩

end

/-! ### Lines and indentation -/

namespace Output

theorem line_deeper (o : Output) (s : String) :
    o.deeper.line s = (o.line ("\t" ++ s)).deeper := by
  have htabs : String.ofList (List.replicate (o.indent + 1) '\t') =
      String.ofList (List.replicate o.indent '\t') ++ "\t" := by
    rw [List.replicate_succ', String.ofList_append]
  simp only [line, deeper, htabs, String.append_assoc]

/-- Lines that are written one tab further in are lines with one more tab. -/
theorem foldl_line_deeper : ∀ (l : List String) (o : Output),
    l.foldl Output.line o.deeper = ((l.map ("\t" ++ ·)).foldl Output.line o).deeper
  | [], _ => rfl
  | s :: l, o => by
    rw [List.foldl_cons, List.map_cons, List.foldl_cons, line_deeper, foldl_line_deeper l]

/-- Lines, each after `n` tabs. -/
def indented (n : Nat) (lines : List String) : String :=
  String.join (lines.map fun l => String.ofList (List.replicate n '\t') ++ l ++ "\n")

theorem foldl_line : ∀ (l : List String) (o : Output),
    l.foldl line o = { text := o.text ++ indented o.indent l, indent := o.indent }
  | [], o => by simp [indented]
  | s :: l, o => by
    rw [List.foldl_cons, foldl_line l]
    simp [indented, line, String.append_assoc]

/-- The lines of a text; what stands after the last newline does not count. -/
def linesOf (text : String) : List String :=
  (text.toList.splitOn '\n').dropLast.map String.ofList

/-- Lines are read back from the text they make. -/
theorem linesOf_indented : ∀ {lines : List String}, (∀ l ∈ lines, OneLine l) →
    linesOf (indented 0 lines) = lines
  | [], _ => by simp [indented, linesOf]
  | l :: lines, h => by
    obtain ⟨hl, h⟩ := List.forall_mem_cons.mp h
    have ih := linesOf_indented h
    have htext : (indented 0 (l :: lines)).toList =
        l.toList ++ '\n' :: (indented 0 lines).toList := by
      simp [indented]
    unfold linesOf at ih ⊢
    rw [htext, List.splitOn_append_cons_self_of_not_mem hl,
      List.dropLast_cons_of_ne_nil (List.splitOn_ne_nil _ _), List.map_cons, ih,
      String.ofList_toList]

end Output

/-! ### Steps that write lines -/

/-- The step does the same from every output: it fails for one reason, or writes the same lines. -/
inductive Uniform (write : Step Output Unit) : Prop where
  | fails (e : Failure) (h : ∀ o, ∃ o', write o = .error e o')
  | writes (lines : List String) (hlines : ∀ l ∈ lines, OneLine l)
    (h : ∀ o, write o = .ok () (lines.foldl Output.line o))

namespace Uniform

variable {write next : Step Output Unit}

theorem line {s : String} (h : OneLine s) : Uniform fun o => .ok () (o.line s) :=
  .writes [s] (List.forall_mem_singleton.mpr h) fun _ => rfl

/-- What comes after a piece of code, which is found or not whatever the output is. -/
theorem ofCode {code : Except Failure String} {next : String → Step Output Unit}
    (h : ∀ c, code = .ok c → Uniform (next c)) :
    Uniform fun o => (Outcome.ofExcept code o).andThen id fun c o => next c o := by
  cases code with
  | error e => exact .fails e fun o => ⟨o, rfl⟩
  | ok c => exact h c rfl

theorem andThen (h : Uniform write) (hn : Uniform next) :
    Uniform fun o => (write o).andThen id fun _ o => next o := by
  cases h with
  | fails e h =>
    refine .fails e fun o => ?_
    obtain ⟨o', ho⟩ := h o
    exact ⟨o', by rw [ho]; rfl⟩
  | writes lines hlines h =>
    cases hn with
    | fails e hn =>
      refine .fails e fun o => ?_
      obtain ⟨o', ho⟩ := hn (lines.foldl Output.line o)
      exact ⟨o', by rw [h]; exact ho⟩
    | writes lines' hlines' hn =>
      refine .writes (lines ++ lines') (List.forall_mem_append.mpr ⟨hlines, hlines'⟩) fun o => ?_
      rw [h, List.foldl_append]
      exact hn _

/-- Between braces the lines have one more tab. -/
theorem braced (h : Uniform write) : Uniform (Output.braced write) := by
  cases h with
  | fails e h =>
    refine .fails e fun o => ?_
    obtain ⟨o', ho⟩ := h (o.line "\x7b").deeper
    exact ⟨o', by rw [Output.braced, ho]; rfl⟩
  | writes lines hlines h =>
    refine .writes ("\x7b" :: lines.map ("\t" ++ ·) ++ ["\x7d"]) ?_ fun o => ?_
    · simp +decide only [List.cons_append, List.forall_mem_cons, List.forall_mem_append,
        List.forall_mem_map, oneLine_append, true_and, and_true]
      exact hlines
    · rw [Output.braced, h, Output.foldl_line_deeper, List.foldl_append]
      rfl

end Uniform

/-! ### Statements -/

theorem Expr.uniform_writeLine {e : Expr} {line : String → String} (h : ∀ x ∈ e.names, OneLine x)
    (hline : ∀ c, OneLine c → OneLine (line c)) : Uniform (writeLine e.code line) :=
  .ofCode fun c hc => .line (hline c (Expr.oneLine_code h hc))

mutual

theorem Stmt.uniform_write : ∀ {s : Stmt}, (∀ x ∈ s.names, OneLine x) → Uniform s.write
  | .block .., h => (Stmt.uniform_writeList h).braced
  | .ifThen .., h => by
    obtain ⟨hc, ht⟩ := List.forall_mem_append.mp h
    refine .andThen (Expr.uniform_writeLine hc fun c hc => ?_) (Stmt.uniform_writeList ht).braced
    simp +decide [hc]
  | .ifElse .., h => by
    obtain ⟨hc, h⟩ := List.forall_mem_append.mp h
    obtain ⟨ht, hf⟩ := List.forall_mem_append.mp h
    have helse : Uniform fun o => Output.braced (fun o => Stmt.writeList _ o) (o.line "else") :=
      (Uniform.line (by decide)).andThen (Stmt.uniform_writeList hf).braced
    refine .andThen (Expr.uniform_writeLine hc fun c hc => ?_)
      ((Stmt.uniform_writeList ht).braced.andThen helse)
    simp +decide [hc]
  | .loop .., h => by
    obtain ⟨hc, hbody⟩ := List.forall_mem_append.mp h
    refine .andThen (Expr.uniform_writeLine hc fun c hc => ?_) (Stmt.uniform_writeList hbody).braced
    simp +decide [hc]
  | .assign _ target value, h => by
    obtain ⟨ht, hv⟩ := List.forall_mem_append.mp h
    refine .ofCode fun code hcode => Expr.uniform_writeLine hv fun c hc => ?_
    simp +decide [Expr.oneLine_code ht hcode, hc]
  | .declare _ ty name none, h => by
    obtain ⟨hty, h⟩ := List.forall_mem_append.mp h
    have hname : OneLine name := h name (List.mem_cons_self ..)
    refine .line ?_
    simp +decide [Ty.oneLine_code hty, hname]
  | .declare _ ty name (some init), h => by
    obtain ⟨hty, h⟩ := List.forall_mem_append.mp h
    obtain ⟨hname, hinit⟩ := List.forall_mem_cons.mp h
    refine Expr.uniform_writeLine (fun x hx => hinit x ?_) fun c hc => ?_
    · simpa [Expr.namesOption] using hx
    · simp +decide [Ty.oneLine_code hty, hname, hc]
  | .ret _ none, _ => .line (by decide)
  | .ret _ (some value), h => by
    refine Expr.uniform_writeLine (fun x hx => h x ?_) fun c hc => ?_
    · simpa [Stmt.names, Expr.namesOption] using hx
    · simp +decide [hc]
  | .print _ value, h => Expr.uniform_writeLine h fun c hc => by simp +decide [hc]
  | .eval _ value, h => Expr.uniform_writeLine h fun c hc => by simp +decide [hc]

theorem Stmt.uniform_writeList : ∀ {ss : List Stmt}, (∀ x ∈ Stmt.namesList ss, OneLine x) →
    Uniform (Stmt.writeList ss)
  | [], _ => .writes [] (List.forall_mem_nil _) fun _ => rfl
  | _ :: _, h =>
    have ⟨hs, hss⟩ := List.forall_mem_append.mp h
    (Stmt.uniform_write hs).andThen (Stmt.uniform_writeList hss)

end

/-- **A statement is written alike everywhere.** Whether it can be written, and why not, depends
neither on the text before it nor on the indentation. If it can, it leaves the indentation as it
was, and adds to the text the lines it writes into an empty output, each after as many tabs. -/
theorem Stmt.write_indented {s : Stmt} (h : ∀ x ∈ s.names, '\n' ∉ x.toList) (o : Output) :
    (s.write o).toExcept = (s.write .empty).toExcept ∧
    ∀ base, s.write .empty = .ok () base →
      base.text = Output.indented 0 (Output.linesOf base.text) ∧
      s.write o = .ok ()
        { text := o.text ++ Output.indented o.indent (Output.linesOf base.text)
          indent := o.indent } := by
  cases Stmt.uniform_write h with
  | fails e h =>
    obtain ⟨o', ho⟩ := h o
    obtain ⟨o₀, ho₀⟩ := h .empty
    rw [ho, ho₀]
    exact ⟨rfl, fun base hbase => nomatch hbase⟩
  | writes lines hlines h =>
    rw [h, h]
    refine ⟨rfl, fun base hbase => ?_⟩
    have htext : base.text = Output.indented 0 lines := by
      rw [Output.foldl_line] at hbase
      cases hbase
      exact String.empty_append
    rw [htext, Output.linesOf_indented hlines, Output.foldl_line]
    exact ⟨rfl, rfl⟩

/-- A loop over a branch, in which `x` is a field of class `A`:

    while (x) { if (true) { print(x); } } -/
def Stmt.nested : Stmt :=
  let x : Expr := .var ⟨.unknown, .empty⟩ none "x" (.filled (.member "A")) .empty
  .loop .unknown x [.ifThen .unknown (.bool ⟨.unknown, .empty⟩ true) [.print .unknown x]]

/-- Two tabs in, after other text, its lines have two more tabs. -/
theorem Stmt.nested_indented :
    let lines := ["while ($VAR(this)->$MEMBER(x))", "\x7b", "\tif (1)", "\t\x7b",
      "\t\t$PRINT($VAR(this)->$MEMBER(x));", "\t\x7d", "\x7d"]
    (∀ x ∈ nested.names, '\n' ∉ x.toList) ∧
    nested.write .empty = .ok () ⟨Output.indented 0 lines, 0⟩ ∧
    nested.write ⟨"\n", 2⟩ = .ok () ⟨"\n" ++ Output.indented 2 lines, 2⟩ := by
  intro lines
  have hnames : ∀ x ∈ nested.names, '\n' ∉ x.toList := by decide
  have hbase : nested.write .empty = .ok () ⟨Output.indented 0 lines, 0⟩ := rfl
  refine ⟨hnames, hbase, ?_⟩
  rw [((write_indented hnames ⟨"\n", 2⟩).2 _ hbase).2, Output.linesOf_indented (by decide)]

end ClassLang
