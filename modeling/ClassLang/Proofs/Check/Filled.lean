import ClassLang.Proofs.Check.Bare
import ClassLang.Proofs.Check.Log

/-!
# The slots that a check fills

Read in the order of a check, parts before the whole, the slots for types of a program are filled one
after the other with the types of the log; those that the check does not come to are as they were
(`Program.slots_check`). So the types of the log are the types on the tree that are from this run.
-/

namespace ClassLang

open Outcome

variable {σ τ α β : Type}

/-! ### The types on a tree -/

mutual

/-- The slots for types of an expression, parts before the whole. -/
def Expr.slots : Expr → List (Slot Ty)
  | .number m _ => [m.ty]
  | .bool m _ => [m.ty]
  | .this m => [m.ty]
  | .var m _ _ _ _ => [m.ty]
  | .binary m _ l r => l.slots ++ (r.slots ++ [m.ty])
  | .unary m _ x => x.slots ++ [m.ty]
  | .call m _ _ args _ _ => Expr.slotsList args ++ [m.ty]
  | .create m _ args _ => Expr.slotsList args ++ [m.ty]

def Expr.slotsList : List Expr → List (Slot Ty)
  | [] => []
  | e :: rest => e.slots ++ Expr.slotsList rest

end

def Expr.slotsOption (e : Option Expr) : List (Slot Ty) := e.toList.flatMap Expr.slots

mutual

def Stmt.slots : Stmt → List (Slot Ty)
  | .block _ body => Stmt.slotsList body
  | .ifThen _ c t => c.slots ++ Stmt.slotsList t
  | .ifElse _ c t f => c.slots ++ (Stmt.slotsList t ++ Stmt.slotsList f)
  | .loop _ c body => c.slots ++ Stmt.slotsList body
  | .assign _ target value => target.slots ++ value.slots
  | .declare _ _ _ init => Expr.slotsOption init
  | .ret _ value => Expr.slotsOption value
  | .print _ value => value.slots
  | .eval _ value => value.slots

def Stmt.slotsList : List Stmt → List (Slot Ty)
  | [] => []
  | s :: rest => s.slots ++ Stmt.slotsList rest

end

def Member.slots : Member → List (Slot Ty)
  | .field .. => []
  | .method _ _ r => Stmt.slotsList r.body
  | .constructor r => Stmt.slotsList r.body

def ClassDecl.slots (c : ClassDecl) : List (Slot Ty) := c.members.flatMap Member.slots

/-- The slots for types of a program, in the order of a check. -/
def Program.slots (p : Program) : List (Slot Ty) := p.classes.flatMap ClassDecl.slots

/-- What a step makes of the slots `old` that come after `before`: it fills them with the types of
the log, from the front on, and all of them if it succeeds. -/
structure Outcome.Fills (r : Outcome σ α) (slots : σ → List (Slot Ty)) (before old : List (Slot Ty))
    (log : List Ty) : Prop where
  state : slots r.state = before ++ (log.map .filled ++ old.drop log.length)
  le : log.length ≤ old.length
  all : ∀ a s, r = .ok a s → log.length = old.length

namespace Outcome.Fills

variable {r : Outcome σ α} {f : σ → List (Slot Ty)} {g : τ → List (Slot Ty)}
  {before old old' : List (Slot Ty)} {log : List Ty} {embed : σ → τ} {next : α → σ → Outcome τ β}
  {rest : α → σ → List Ty}

/-- Where there is nothing to fill. -/
theorem nothing (h : f r.state = before) : r.Fills f before [] [] :=
  ⟨by simpa using h, Nat.le_refl _, fun _ _ _ => rfl⟩

/-- A slot is filled. -/
theorem one {a : α} {s : σ} {slot : Slot Ty} {ty : Ty} (h : f s = before ++ [.filled ty]) :
    (Outcome.ok a s).Fills f before [slot] [ty] :=
  ⟨by simpa [Outcome.state] using h, Nat.le_refl _, fun _ _ _ => rfl⟩

/-- The slots of a part, and then those of what follows it. -/
theorem andThen (hr : r.Fills f [] old log) (hw : ∀ s, g (embed s) = before ++ (f s ++ old'))
    (hn : ∀ a s, r = .ok a s → (next a s).Fills g (before ++ f s) old' (rest a s)) :
    (r.andThen embed next).Fills g before (old ++ old') (log ++ r.onOk rest) := by
  cases r with
  | ok a s =>
    have hall := hr.all a s rfl
    have hs : f s = log.map .filled := by
      have hstate : f s = [] ++ (log.map .filled ++ old.drop log.length) := hr.state
      rw [hstate, hall, List.drop_length, List.append_nil, List.nil_append]
    have hnext := hn a s rfl
    rw [hs] at hnext
    refine ⟨?_, ?_, fun b t ht => ?_⟩
    · rw [andThen_ok, hnext.state, onOk, List.map_append, List.length_append, hall,
        List.drop_length_add_append]
      simp only [List.append_assoc]
    · have hle := hnext.le
      simp only [onOk, List.length_append]
      omega
    · have hlast := hnext.all b t ht
      simp only [onOk, List.length_append]
      omega
  | error e s =>
    have hs : f s = [] ++ (log.map .filled ++ old.drop log.length) := hr.state
    have hle := hr.le
    refine ⟨?_, ?_, fun b t ht => by cases ht⟩
    · rw [andThen_error, onOk, List.append_nil, Outcome.state, hw, hs,
        List.drop_append_of_le_length hle]
      simp
    · simp only [onOk, List.append_nil, List.length_append]
      omega

/-- A part without slots comes first. -/
theorem after (hw : g (embed r.state) = before ++ old)
    (hn : ∀ a s, r = .ok a s → (next a s).Fills g before old (rest a s)) :
    (r.andThen embed next).Fills g before old (r.onOk rest) := by
  cases r with
  | ok a s => exact hn a s rfl
  | error e s => exact ⟨by simpa [onOk, Outcome.state] using hw, Nat.zero_le _, fun _ _ => nofun⟩

/-- A question to the environment comes first. -/
theorem ask {x : Except Failure α} {s : σ} {env : Env} {rest : α → Env → List Ty}
    (hw : g (embed s) = before ++ old)
    (hn : ∀ a, (next a s).Fills g before old (rest a env)) :
    ((Outcome.ofExcept x s).andThen embed next).Fills g before old
      ((Outcome.ofExcept x env).onOk rest) := by
  cases x with
  | ok a => exact hn a
  | error e => exact ⟨by simpa [onOk, Outcome.state] using hw, Nat.zero_le _, fun _ _ => nofun⟩

/-- A part is all there is, after other slots; what follows it fills no slots. -/
theorem finish (hr : r.Fills f [] old log) (hw : ∀ s, g (embed s) = before ++ f s)
    (hn : ∀ a s, g (next a s).state = before ++ f s) :
    (r.andThen embed next).Fills g before old log := by
  have hstate : g (r.andThen embed next).state = before ++ f r.state := by
    cases r with
    | ok a s => exact hn a s
    | error e s => exact hw s
  refine ⟨?_, hr.le, fun b t ht => ?_⟩
  · rw [hstate, hr.state, List.nil_append]
  · cases r with
    | ok a s => exact hr.all a s rfl
    | error e s => cases ht

theorem wrap (hr : r.Fills f [] old log) (hw : ∀ s, g (embed s) = before ++ f s) :
    (r.wrap embed).Fills g before old log := by
  rw [wrap_eq_andThen]
  exact hr.finish hw fun _ => hw

theorem locate (hr : r.Fills f before old log) (place : Span) :
    (r.locate place).Fills f before old log := by
  cases r with
  | ok a s => exact hr
  | error e s => exact ⟨hr.state, hr.le, fun _ _ => nofun⟩

end Outcome.Fills

open Outcome (Fills)

mutual

/-- An expression is filled parts first. -/
theorem Expr.fills_check (env : Env) : ∀ e : Expr,
    (e.check env).Fills Expr.slots [] e.slots (e.log env)
  | .number m n => .one rfl
  | .bool m b => .one rfl
  | .this m => by
    rw [Expr.check, Expr.log]
    refine Fills.locate ?_ _
    exact Fills.ask rfl fun ty => .one rfl
  | .var m o x b ob => by
    rw [Expr.check, Expr.log]
    refine Fills.locate ?_ _
    exact Fills.ask rfl fun found => .one rfl
  | .binary m op l r => by
    rw [Expr.check, Expr.log, Expr.slots]
    refine Fills.locate ?_ _
    refine Fills.andThen (Expr.fills_check env l) (fun _ => rfl) fun lty l' _ => ?_
    refine Fills.andThen (Expr.fills_check env r) (fun r' => rfl) fun rty r' _ => ?_
    refine Fills.ask ?_ fun ty => .one ?_
    · simp [Expr.slots]
    · simp [Expr.slots]
  | .unary m op x => by
    rw [Expr.check, Expr.log, Expr.slots]
    refine Fills.locate ?_ _
    refine Fills.andThen (Expr.fills_check env x) (fun _ => rfl) fun xty x' _ => ?_
    exact Fills.ask rfl fun ty => .one rfl
  | .call m o f args b ob => by
    rw [Expr.check, Expr.log, Expr.slots]
    refine Fills.locate ?_ _
    refine Fills.ask rfl fun found => ?_
    refine Fills.andThen (Expr.fills_checkList env args) (fun _ => rfl) fun tys args' _ => ?_
    exact Fills.ask rfl fun target => .one rfl
  | .create m cls args b => by
    rw [Expr.check, Expr.log, Expr.slots]
    refine Fills.locate ?_ _
    refine Fills.ask rfl fun name => ?_
    refine Fills.andThen (Expr.fills_checkList env args) (fun _ => rfl) fun tys args' _ => ?_
    exact Fills.ask rfl fun target => .one rfl

theorem Expr.fills_checkList (env : Env) : ∀ es : List Expr,
    (Expr.checkList env es).Fills Expr.slotsList [] (Expr.slotsList es) (Expr.logList env es)
  | [] => .nothing rfl
  | e :: rest => by
    rw [Expr.checkList, Expr.logList, Expr.slotsList]
    refine Fills.andThen (Expr.fills_check env e) (fun _ => rfl) fun ty e' _ => ?_
    exact Fills.finish (Expr.fills_checkList env rest) (fun _ => rfl) fun _ _ => rfl

end

theorem Expr.fills_checkThat (env : Env) (e : Expr) (require : Ty → Except Failure Unit) :
    (e.checkThat env require).Fills Expr.slots [] e.slots (e.log env) := by
  refine Fills.finish (e.fills_check env) (fun _ => rfl) fun ty e' => ?_
  rw [state_locate, state_ofExcept]
  rfl

/-! ### Statements and classes -/

@[simp] theorem typesOf_nil : typesOf [] = [] := rfl

@[simp] theorem typesOf_append (l l' : List Event) : typesOf (l ++ l') = typesOf l ++ typesOf l' :=
  List.filterMap_append

@[simp] theorem typesOf_moved (env : Env) (l : List Event) :
    typesOf (.moved env :: l) = typesOf l := rfl

@[simp] theorem typesOf_onOk (r : Outcome σ α) (next : α → σ → List Event) :
    typesOf (r.onOk next) = r.onOk fun a s => typesOf (next a s) := by
  cases r <;> rfl

@[simp] theorem typesOf_tieLog (parent : Option String) (env : Env) :
    typesOf (tieLog parent env) = [] := by
  cases parent with
  | none => rfl
  | some q =>
    rw [tieLog]
    split <;> rfl

@[simp] theorem typesOf_paramLog : ∀ (params : List Param) (env : Env),
    typesOf (paramLog params env) = []
  | [], _ => rfl
  | q :: rest, env => by
    rw [paramLog, typesOf_moved, typesOf_onOk]
    simp only [typesOf_paramLog rest, onOk_nil]

theorem Member.typesOf_declareLog (cls : String) (env : Env) (m : Member) :
    typesOf (m.declareLog cls env) = [] := by
  cases m <;> simp [declareLog, onOk_nil]

/-- Declaring members fills in no types. -/
@[simp] theorem Member.typesOf_declareListLog (cls : String) : ∀ (ms : List Member) (replaced : Bool)
    (env : Env), typesOf (Member.declareListLog cls replaced ms env) = []
  | [], _, _ => rfl
  | m :: rest, replaced, env => by
    rw [declareListLog, typesOf_append, m.typesOf_declareLog, typesOf_onOk]
    simp only [Member.typesOf_declareListLog cls rest, onOk_nil, List.append_nil]

@[simp] theorem Expr.typesOf_events (env : Env) (e : Expr) : typesOf (e.events env) = e.log env := by
  rw [typesOf, events, List.filterMap_map]
  exact List.filterMap_some

theorem typesOf_logInScope (env : Env) (run : Env → Checked (List Stmt)) (log : Env → List Event) :
    typesOf (logInScope env run log) = (Env.enterScope env).onOk fun _ env => typesOf (log env) := by
  simp [logInScope, onOk_nil]

theorem fills_checkInScope {body : List Stmt} {run : Env → Checked (List Stmt)}
    {log : Env → List Event} (h : ∀ env, (run env).Fills (fun r => Stmt.slotsList r.1) []
      (Stmt.slotsList body) (typesOf (log env))) (env : Env) :
    (checkInScope body env run).Fills (fun r => Stmt.slotsList r.1) [] (Stmt.slotsList body)
      (typesOf (logInScope env run log)) := by
  rw [typesOf_logInScope]
  unfold checkInScope
  refine Fills.after rfl fun _ env₁ _ => ?_
  refine Fills.finish (h env₁) (fun _ => rfl) fun _ r => ?_
  rw [state_wrap]
  rfl

theorem fills_checkAssign (env : Env) (target value : Expr) :
    (checkAssign env target value).Fills (fun r => r.1.slots ++ r.2.slots) []
      (target.slots ++ value.slots) (typesOf (logAssign env target value)) := by
  unfold checkAssign logAssign
  split
  · simp only [typesOf_append, typesOf_onOk, Expr.typesOf_events]
    refine Fills.andThen (target.fills_check env) (fun _ => rfl) fun expected target' _ => ?_
    exact Fills.wrap (value.fills_checkThat env _) fun _ => rfl
  · exact ⟨by simp [typesOf, Outcome.state], Nat.zero_le _, fun _ _ => nofun⟩

theorem fills_checkInit (env : Env) (ty : Ty) (init : Option Expr) :
    (checkInit env ty init).Fills Expr.slotsOption [] (Expr.slotsOption init)
      (typesOf (Expr.eventsOption env init)) := by
  cases init with
  | none => exact .nothing rfl
  | some e =>
    simp only [Expr.slotsOption, Expr.eventsOption, Option.toList_some, List.flatMap_cons,
      List.flatMap_nil, List.append_nil, Expr.typesOf_events]
    exact Fills.wrap (e.fills_checkThat env _) fun _ => by simp [Expr.slotsOption]

theorem fills_checkReturn (env : Env) (expected : Ty) (value : Option Expr) :
    (checkReturn env expected value).Fills Expr.slotsOption [] (Expr.slotsOption value)
      (typesOf (logReturn env expected value)) := by
  cases value with
  | none =>
    have hlog : typesOf (logReturn env expected none) = [] := by
      unfold logReturn
      split <;> rfl
    rw [hlog, checkReturn]
    refine .nothing ?_
    split <;> rfl
  | some e =>
    rw [checkReturn, logReturn]
    split
    · exact ⟨by simp [typesOf, Outcome.state], Nat.zero_le _, fun _ _ h => by cases h⟩
    · exact fills_checkInit env expected (some e)

mutual

theorem Stmt.fills_check : ∀ (s : Stmt) (env : Env),
    (s.check env).Fills (fun r => r.1.slots) [] s.slots (typesOf (s.log env))
  | .block sp body, env => by
    rw [Stmt.check, Stmt.log, Stmt.slots]
    refine Fills.locate ?_ _
    exact Fills.wrap (fills_checkInScope (Stmt.fills_checkList body) env) fun _ => rfl
  | .ifThen sp c t, env => by
    rw [Stmt.check, Stmt.log, Stmt.slots]
    simp only [typesOf_append, typesOf_onOk, Expr.typesOf_events]
    refine Fills.locate ?_ _
    refine Fills.andThen (c.fills_checkThat env _) (fun _ => rfl) fun _ c' _ => ?_
    exact Fills.wrap (fills_checkInScope (Stmt.fills_checkList t) env) fun _ => rfl
  | .ifElse sp c t f, env => by
    rw [Stmt.check, Stmt.log, Stmt.slots]
    simp only [typesOf_append, typesOf_onOk, Expr.typesOf_events]
    refine Fills.locate ?_ _
    refine Fills.andThen (c.fills_checkThat env _) (fun _ => rfl) fun _ c' _ => ?_
    refine Fills.andThen (fills_checkInScope (Stmt.fills_checkList t) env) (fun _ => rfl)
      fun _ r _ => ?_
    exact Fills.wrap (fills_checkInScope (Stmt.fills_checkList f) r.2) fun _ => by
      simp [Stmt.slots]
  | .loop sp c body, env => by
    rw [Stmt.check, Stmt.log, Stmt.slots]
    simp only [typesOf_append, typesOf_onOk, Expr.typesOf_events]
    refine Fills.locate ?_ _
    refine Fills.andThen (c.fills_checkThat env _) (fun _ => rfl) fun _ c' _ => ?_
    exact Fills.wrap (fills_checkInScope (Stmt.fills_checkList body) env) fun _ => rfl
  | .assign sp target value, env => by
    rw [Stmt.check, Stmt.log, Stmt.slots]
    refine Fills.locate ?_ _
    exact Fills.wrap (fills_checkAssign env target value) fun _ => rfl
  | .declare sp ty x init, env => by
    rw [Stmt.check, Stmt.log, Stmt.slots]
    simp only [typesOf_append, typesOf_onOk, typesOf_moved, typesOf_nil, onOk_nil, List.append_nil]
    refine Fills.locate ?_ _
    refine Fills.ask rfl fun _ => ?_
    refine Fills.finish (fills_checkInit env ty init) (fun _ => rfl) fun _ init' => ?_
    rw [state_wrap]
    rfl
  | .ret sp value, env => by
    rw [Stmt.check, Stmt.log, Stmt.slots]
    simp only [typesOf_onOk]
    refine Fills.locate ?_ _
    refine Fills.ask rfl fun m => ?_
    exact Fills.wrap (fills_checkReturn env _ value) fun _ => rfl
  | .print sp value, env => by
    rw [Stmt.check, Stmt.log, Stmt.slots, Expr.typesOf_events]
    refine Fills.locate ?_ _
    exact Fills.wrap (value.fills_checkThat env _) fun _ => rfl
  | .eval sp value, env => by
    rw [Stmt.check, Stmt.log, Stmt.slots, Expr.typesOf_events]
    refine Fills.locate ?_ _
    exact Fills.finish (value.fills_check env) (fun _ => rfl) fun _ _ => rfl

theorem Stmt.fills_checkList : ∀ (ss : List Stmt) (env : Env),
    (Stmt.checkList ss env).Fills (fun r => Stmt.slotsList r.1) [] (Stmt.slotsList ss)
      (typesOf (Stmt.logList ss env))
  | [], _ => .nothing rfl
  | s :: rest, env => by
    rw [Stmt.checkList, Stmt.logList, Stmt.slotsList]
    simp only [typesOf_append, typesOf_onOk]
    refine Fills.andThen (Stmt.fills_check s env) (fun _ => rfl) fun _ r _ => ?_
    exact Fills.wrap (Stmt.fills_checkList rest r.2) fun _ => rfl

end

theorem fills_checkEach {check : τ → Env → Checked τ} {log : τ → Env → List Event}
    {slots : τ → List (Slot Ty)}
    (h : ∀ x env, (check x env).Fills (fun r => slots r.1) [] (slots x) (typesOf (log x env))) :
    ∀ (xs : List τ) (env : Env), (checkEach check xs env).Fills (fun r => r.1.flatMap slots) []
      (xs.flatMap slots) (typesOf (logEach check log xs env))
  | [], _ => .nothing rfl
  | x :: rest, env => by
    rw [checkEach, logEach, List.flatMap_cons]
    simp only [typesOf_append, typesOf_onOk]
    refine Fills.andThen (h x env) (fun _ => rfl) fun _ r _ => ?_
    exact Fills.wrap (fills_checkEach h rest r.2) fun _ => rfl

theorem Routine.fills_checkBody (r : Routine) (s : Signature) (env : Env) :
    (r.checkBody s env).Fills (fun r => Stmt.slotsList r.1.body) [] (Stmt.slotsList r.body)
      (typesOf (r.bodyLog s env)) := by
  unfold Routine.checkBody Routine.bodyLog
  simp only [typesOf_moved, typesOf_append, typesOf_onOk, typesOf_paramLog, typesOf_nil, onOk_nil,
    List.nil_append, List.append_nil]
  refine Fills.after rfl fun _ env₁ _ => ?_
  refine Fills.after rfl fun _ env₂ _ => ?_
  refine Fills.finish (Fills.locate (Stmt.fills_checkList r.body env₂) _) (fun _ => rfl) fun _ b => ?_
  rw [state_wrap]
  rfl

theorem Routine.fills_check (r : Routine) (name : String) (env : Env) :
    (r.check name env).Fills (fun r => Stmt.slotsList r.1.body) [] (Stmt.slotsList r.body)
      (typesOf (r.log name env)) := by
  unfold Routine.check Routine.log
  rw [typesOf_onOk]
  exact Fills.ask rfl fun s => r.fills_checkBody s env

theorem Member.fills_checkBody (m : Member) (env : Env) :
    (m.checkBody env).Fills (fun r => r.1.slots) [] m.slots (typesOf (m.log env)) := by
  cases m with
  | field => exact .nothing rfl
  | method ret name r => exact Fills.wrap (r.fills_check name env) fun _ => rfl
  | constructor r => exact Fills.wrap (r.fills_check constructorName env) fun _ => rfl

/-- Declaring a member fills in its signature, and no type. -/
theorem Member.slots_declare (cls : String) (replaced : Bool) (m : Member) (env : Env) :
    (m.declare cls replaced env).state.1.slots = m.slots := by
  have hdeclare : ∀ (r : Routine) s mayReplace,
      (r.declare cls s mayReplace env).state.1.body = r.body := by
    intro r s mayReplace
    unfold Routine.declare
    refine keeps_tree_step (fun _ => rfl) fun _ env => ?_
    split <;> rfl
  cases m with
  | field sp ty x => exact keeps_tree_step (fun _ => rfl) fun _ _ => rfl
  | method ret f r =>
    rw [Member.declare, state_locate]
    refine keeps_tree_ask rfl fun _ => ?_
    refine keeps_tree_ask rfl fun _ => ?_
    exact keeps_tree_part (hdeclare ..) (fun _ hr => congrArg Stmt.slotsList hr)
      fun _ _ hr => congrArg Stmt.slotsList hr
  | constructor r =>
    rw [Member.declare, state_locate]
    refine keeps_tree_ask rfl fun _ => ?_
    exact keeps_tree_part (hdeclare ..) (fun _ hr => congrArg Stmt.slotsList hr)
      fun _ _ hr => congrArg Stmt.slotsList hr

theorem Member.slots_declareList (cls : String) : ∀ (ms : List Member) (replaced : Bool) (env : Env),
    (Member.declareList cls replaced ms env).state.1.flatMap Member.slots = ms.flatMap Member.slots
  | [], _, _ => rfl
  | m :: rest, replaced, env => by
    rw [Member.declareList]
    refine keeps_tree_part (Member.slots_declare cls replaced m env) (fun r hm => ?_)
      fun replaced r hm => ?_
    · rw [List.flatMap_cons, hm, List.flatMap_cons]
    · have hrest := Member.slots_declareList cls rest replaced r.2
      rw [state_wrap, List.flatMap_cons, hm, hrest, List.flatMap_cons]

theorem ClassDecl.fills_check (c : ClassDecl) (env : Env) :
    (c.check env).Fills (fun r => r.1.slots) [] c.slots (typesOf (c.log env)) := by
  unfold ClassDecl.check ClassDecl.log
  simp only [typesOf_moved, typesOf_append, typesOf_onOk, typesOf_tieLog,
    Member.typesOf_declareListLog, typesOf_nil, onOk_nil, List.nil_append, List.append_nil]
  rw [← onOk_locate c.span]
  refine Fills.after rfl fun _ env₁ _ => ?_
  rw [← onOk_locate c.span]
  refine Fills.after rfl fun _ env₂ _ => ?_
  have hdeclared := Member.slots_declareList c.name c.members false env₂
  refine Fills.after hdeclared fun _ r hr => ?_
  rw [hr] at hdeclared
  have hbodies := fills_checkEach Member.fills_checkBody r.1 r.2
  rw [show r.1.flatMap Member.slots = c.slots from hdeclared] at hbodies
  refine Fills.finish hbodies (fun _ => rfl) fun _ b => ?_
  rw [state_wrap]
  rfl

/-- **What a check leaves of the types on a tree.** The slots are filled one after the other with the
types of the log; those after them are as they were. -/
theorem Program.slots_check (p : Program) : (p.check .empty).state.1.slots =
    (typesOf p.log).map .filled ++ p.slots.drop (typesOf p.log).length := by
  rw [Program.check, state_wrap]
  exact (fills_checkEach ClassDecl.fills_check p.classes .empty).state

end ClassLang
