import ClassLang.Proofs.Check.Program
import ClassLang.Proofs.Output.Lines
import ClassLang.Proofs.Typing.Sites

/-!
# Annotated programs can be written

Writing a tree fails only where a slot it reads is empty or a class is not in the table. An
annotated tree has these slots filled, so every expression, statement and member of it is written
(`HasType.code_eq_ok`, `Stmt.Ok.writes`, `Member.Ok.writes`), and with a table that records its
classes the whole program is (`Program.Ok.writes`). The text is added to what stands there before,
and is the same after every other text (`Writes`).
-/

namespace ClassLang

variable {Γ : Context} {classes : List Outline} {cls : String}

/-! ### Expressions -/

mutual

theorem HasType.code_eq_ok : ∀ {e : Expr} {τ : Ty}, HasType .annotated Γ e τ →
    ∃ code, e.code = .ok code
  | .number .., _, _ => ⟨_, rfl⟩
  | .bool .., _, _ => ⟨_, rfl⟩
  | .this _, _, _ => ⟨_, rfl⟩
  | .var .., _, _ => ⟨_, rfl⟩
  | .binary .., _, .binary hl hr _ _ => by
    obtain ⟨l, hl⟩ := HasType.code_eq_ok hl
    obtain ⟨r, hr⟩ := HasType.code_eq_ok hr
    rw [Expr.code, hl, hr]
    exact ⟨_, rfl⟩
  | .unary .., _, .unary hx _ _ => by
    obtain ⟨x, hx⟩ := HasType.code_eq_ok hx
    rw [Expr.code, hx]
    exact ⟨_, rfl⟩
  | .call .., _, .call _ hargs _ _ hb _ => by
    obtain ⟨codes, hargs⟩ := HasTypes.codeList_eq_ok hargs
    obtain rfl := hb
    rw [Expr.code, hargs]
    exact ⟨_, rfl⟩
  | .create .., _, .create _ hargs _ _ hb => by
    obtain ⟨codes, hargs⟩ := HasTypes.codeList_eq_ok hargs
    obtain rfl := hb
    rw [Expr.code, hargs]
    exact ⟨_, rfl⟩

theorem HasTypes.codeList_eq_ok : ∀ {es : List Expr} {τs : List Ty}, HasTypes .annotated Γ es τs →
    ∃ codes, Expr.codeList es = .ok codes
  | [], _, _ => ⟨_, rfl⟩
  | _ :: _, _, .cons he hes => by
    obtain ⟨code, he⟩ := HasType.code_eq_ok he
    obtain ⟨codes, hes⟩ := HasTypes.codeList_eq_ok hes
    rw [Expr.codeList, he, hes]
    exact ⟨_, rfl⟩

end

/-! ### Steps that add to the text -/

/-- The step succeeds from every output. It adds a text that depends on the indentation only, and
leaves the indentation as it was. -/
def Writes (write : Step Output Unit) : Prop :=
  ∀ n, ∃ added, ∀ before, write ⟨before, n⟩ = .ok () ⟨before ++ added, n⟩

namespace Writes

variable {write next : Step Output Unit}

theorem lines (l : List String) : Writes fun o => .ok () (l.foldl Output.line o) :=
  fun n => ⟨Output.indented n l, fun _ => congrArg _ (Output.foldl_line l _)⟩

theorem nothing : Writes fun o => .ok () o := lines []

theorem line (s : String) : Writes fun o => .ok () (o.line s) := lines [s]

theorem newline : Writes fun o => .ok () o.newline := fun _ => ⟨"\n", fun _ => rfl⟩

theorem andThen (h : Writes write) (hn : Writes next) :
    Writes fun o => (write o).andThen id fun _ o => next o := by
  intro n
  obtain ⟨first, hfirst⟩ := h n
  obtain ⟨rest, hrest⟩ := hn n
  refine ⟨first ++ rest, fun before => ?_⟩
  simp only [hfirst, Outcome.andThen_ok, hrest, String.append_assoc]

theorem braced (h : Writes write) : Writes (Output.braced write) := by
  intro n
  obtain ⟨inner, hinner⟩ := h (n + 1)
  refine ⟨Output.indented n ["\x7b"] ++ inner ++ Output.indented n ["\x7d"], fun before => ?_⟩
  have hopen : (Output.line ⟨before, n⟩ "\x7b").deeper =
      ⟨before ++ Output.indented n ["\x7b"], n + 1⟩ :=
    congrArg Output.deeper (Output.foldl_line ["\x7b"] ⟨before, n⟩)
  rw [Output.braced, hopen, hinner, Outcome.andThen_ok]
  refine congrArg _ ((Output.foldl_line ["\x7d"] _).trans ?_)
  simp only [Output.shallower, Nat.add_sub_cancel, String.append_assoc]

end Writes

/-! ### Statements -/

theorem HasType.writes_line {e : Expr} {τ : Ty} (h : HasType .annotated Γ e τ)
    (line : String → String) : Writes (writeLine e.code line) := by
  obtain ⟨code, hcode⟩ := h.code_eq_ok
  rw [hcode]
  exact .line (line code)

mutual

theorem Stmt.Ok.writes : ∀ {s : Stmt} {Γ : Context}, s.Ok .annotated Γ → Writes s.write
  | .block .., _, .block h => (Stmt.AllOk.writes h).braced
  | .ifThen .., _, .ifThen hc ht => (hc.writes_line _).andThen (Stmt.AllOk.writes ht).braced
  | .ifElse .., _, .ifElse hc ht hf => by
    have hf : Writes fun o => Output.braced (fun o => Stmt.writeList _ o) (o.line "else") :=
      (Writes.line "else").andThen (Stmt.AllOk.writes hf).braced
    exact (hc.writes_line _).andThen ((Stmt.AllOk.writes ht).braced.andThen hf)
  | .loop .., _, .loop hc h => (hc.writes_line _).andThen (Stmt.AllOk.writes h).braced
  | .assign .., _, .assign _ ht hv _ => by
    intro n
    obtain ⟨target, htarget⟩ := ht.code_eq_ok
    obtain ⟨added, hadded⟩ := hv.writes_line _ n
    refine ⟨added, fun before => ?_⟩
    rw [Stmt.write, htarget]
    exact hadded before
  | .declare _ _ _ none, _, .declare _ => .line _
  | .declare _ _ _ (some _), _, .init _ hv _ => hv.writes_line _
  | .ret _ none, _, .leave _ => .line _
  | .ret _ (some _), _, .ret _ hv _ => hv.writes_line _
  | .print .., _, .print hv _ => hv.writes_line _
  | .eval .., _, .eval hv => hv.writes_line _

theorem Stmt.AllOk.writes : ∀ {ss : List Stmt} {Γ : Context}, Stmt.AllOk .annotated Γ ss →
    Writes (Stmt.writeList ss)
  | [], _, _ => .nothing
  | _ :: _, _, .cons hs hrest => (Stmt.Ok.writes hs).andThen (Stmt.AllOk.writes hrest)

end

/-! ### Classes -/

theorem Routine.writes {r : Routine} {s : Signature} (hs : r.signature = .filled s)
    (h : Writes (Stmt.writeBlock r.body)) (name head : String) :
    Writes fun o => r.write cls name head o.newline := by
  simp only [Routine.write, hs]
  exact Writes.newline.andThen ((Writes.line _).andThen h)

theorem Member.Ok.writes {m : Member} (h : m.Ok .annotated classes cls) : Writes (m.write cls) := by
  cases h with
  | field => exact .nothing
  | method hs h => exact Routine.writes hs (Stmt.AllOk.writes h).braced _ _
  | constructor hs h => exact Routine.writes hs (Stmt.AllOk.writes h).braced _ _

theorem Member.writes_list : ∀ {ms : List Member}, (∀ m ∈ ms, m.Ok .annotated classes cls) →
    Writes (Member.writeList cls ms)
  | [], _ => .nothing
  | _ :: _, h =>
    have ⟨hm, hms⟩ := List.forall_mem_cons.mp h
    hm.writes.andThen (Member.writes_list hms)

/-- The lines that are written of a record. -/
theorem ClassInfo.write_eq (i : ClassInfo) (o : Output) : i.write o =
    ([s!"$CLASS({i.name})", "\x7b"] ++ i.layout.map ("\t" ++ ·) ++ ["\x7d;"]).foldl
      Output.line o := by
  rw [List.foldl_append, List.foldl_append, ClassInfo.write, Output.foldl_line_deeper,
    Output.shallower_deeper]
  rfl

/-- A class is written if the table has a class of its name. -/
theorem ClassDecl.Ok.writes {c : ClassDecl} {earlier : List Outline} {t : ClassTable}
    (h : c.Ok .annotated earlier) (ht : t.contains c.name = true) : Writes (c.write t) := by
  obtain ⟨info, hinfo⟩ := Option.isSome_iff_exists.mp ht
  unfold ClassDecl.write
  simp only [hinfo, info.write_eq]
  exact (Writes.lines _).andThen (Member.writes_list h.bodies)

theorem ClassDecl.AllOk.writes_rest {t : ClassTable} : ∀ {cs : List ClassDecl}
    {earlier : List Outline}, ClassDecl.AllOk .annotated earlier cs →
    (∀ c ∈ cs, t.contains c.name = true) → Writes (ClassDecl.writeRest t cs)
  | [], _, _, _ => .nothing
  | c :: _, _, .cons hc hrest, ht => by
    obtain ⟨hcls, ht⟩ := List.forall_mem_cons.mp ht
    have hfirst : Writes fun o => c.write t o.newline := Writes.newline.andThen (hc.writes hcls)
    exact hfirst.andThen (ClassDecl.AllOk.writes_rest hrest ht)

/-- **An annotated program is written**, with a table that records its classes. -/
theorem Program.Ok.writes {q : Program} {t : ClassTable} (h : q.Ok .annotated)
    (ht : t.Records q.outlines) : Writes (q.write t) := by
  have hfound : ∀ c ∈ q.classes, t.contains c.name = true := by
    intro c hc
    rw [ht.contains_iff, Program.outlines, List.map_map]
    exact List.mem_map.mpr ⟨c, hc, rfl⟩
  obtain ⟨classes⟩ := q
  cases h with
  | nil => exact .nothing
  | cons hc hrest =>
    obtain ⟨hcls, hfound⟩ := List.forall_mem_cons.mp hfound
    exact (hc.writes hcls).andThen (ClassDecl.AllOk.writes_rest hrest hfound)

end ClassLang
