import ClassLang.ClassTable.Overload
import ClassLang.Proofs.MethodSet
import ClassLang.Proofs.Outcome
import ClassLang.Proofs.Table.InStep

/-!
# The operations on a class table

A table is changed by five operations: a class is entered, given a parent, fields and methods, and
left. An operation that fails changes nothing; one that succeeds enters a class that is new, leaves
the open one, or changes the record of the open one and no other (`ClassTable.Op.step_cases`).

So after any operations, taken in any order and with any arguments, the names in order, the records
and the open class are in step: the order has the classes that were entered, once each and in that
order, just these have a record, under the name that it has, and the open one is the last. Every
class still has the constructor it started out with, whatever methods it was given later: of two
methods with one key a set keeps the first (`ClassTable.sound_after_operations`).
-/

namespace ClassLang

namespace ClassTable

/-- An operation on a class table. -/
inductive Op where
  | enter (name : String)
  | setParent (parent : String)
  | addField (name : String) (ty : Ty)
  | addMethod (s : Signature)
  | leave
deriving DecidableEq

namespace Op

def step : Op → Step ClassTable Unit
  | enter name => ClassTable.enter name
  | setParent parent => ClassTable.setParent parent
  | addField name ty => fun t => (ClassTable.addField name ty t).forget
  | addMethod s => fun t => (ClassTable.addMethod s t).forget
  | leave => fun t => .ok () t.leave

/-- What an operation does to the record of the open class, if that is what it is for. -/
def change? : Op → Option (ClassInfo → ClassInfo)
  | enter _ => none
  | setParent parent => some fun c => { c with parent := some parent }
  | addField name ty => some fun c => (c.insertMember name (.value ty)).2
  | addMethod s => some fun c => (c.insertMethod s).2
  | leave => none

/-- The class that an operation enters, if it succeeds in that. -/
def enters (t : ClassTable) : Op → List String
  | enter name => (ClassTable.enter name t).onOk fun _ _ => [name]
  | _ => []

end Op

/-- The table after some operations, failed ones among them. -/
def run (t : ClassTable) : List Op → ClassTable
  | [] => t
  | op :: rest => run (op.step t).state rest

/-- The classes that operations enter, in their order. -/
def entered (t : ClassTable) : List Op → List String
  | [] => []
  | op :: rest => op.enters t ++ entered (op.step t).state rest

variable {t t' : ClassTable} {c : ClassInfo} {op : Op} {f : ClassInfo → ClassInfo} {cls : String}

/-! ### What an operation does -/

/-- What an operation that succeeds makes of the table. -/
inductive Effect (t : ClassTable) : Op → ClassTable → Prop
  | enter {name : String} (hclosed : t.current = none) (hnew : t.contains name = false) :
    Effect t (.enter name) (t.extend name)
  | change {op : Op} {f : ClassInfo → ClassInfo} {cls : String} {c : ClassInfo}
    (hf : op.change? = some f) (hopen : t.current = some cls) (hc : t.find? cls = some c) :
    Effect t op (t.update cls f)
  | leave : Effect t .leave t.leave

/-- A step on the open class answers from its record, and changes it. -/
theorem onCurrent_of_open {α : Type} (hopen : t.current = some cls) (hc : t.find? cls = some c)
    (operation : String) (change : ClassInfo → α × ClassInfo) :
    onCurrent operation change t = .ok (change c).1 (t.update cls fun c => (change c).2) := by
  unfold onCurrent
  simp only [hopen, hc]

theorem onCurrent_cases {α : Type} (operation : String) (change : ClassInfo → α × ClassInfo)
    (t : ClassTable) :
    (∃ e, onCurrent operation change t = .error e t) ∨
      ∃ cls c, t.current = some cls ∧ t.find? cls = some c ∧
        onCurrent operation change t = .ok (change c).1 (t.update cls fun c => (change c).2) := by
  cases hopen : t.current with
  | none =>
    left
    unfold onCurrent
    simp only [hopen]
    exact ⟨_, rfl⟩
  | some cls =>
    cases hc : t.find? cls with
    | none =>
      left
      unfold onCurrent
      simp only [hopen, hc]
      exact ⟨_, rfl⟩
    | some c => exact .inr ⟨cls, c, rfl, hc, onCurrent_of_open hopen hc ..⟩

theorem enter_cases (name : String) (t : ClassTable) :
    (∃ e, ClassTable.enter name t = .error e t) ∨ t.current = none ∧ t.contains name = false ∧
      ClassTable.enter name t = .ok () (t.extend name) := by
  unfold ClassTable.enter
  cases hcur : t.current with
  | some opened => exact .inl ⟨_, rfl⟩
  | none =>
    by_cases hname : t.contains name = true
    · exact .inl ⟨_, if_pos hname⟩
    · exact .inr ⟨rfl, by simpa using hname, if_neg hname⟩

/-- **An operation fails and changes nothing, or has one of the effects.** -/
theorem Op.step_cases (op : Op) (t : ClassTable) :
    (∃ e, op.step t = .error e t) ∨ ∃ t', op.step t = .ok () t' ∧ t.Effect op t' := by
  cases op with
  | enter name =>
    rcases enter_cases name t with h | ⟨hclosed, hnew, h⟩
    · exact .inl h
    · exact .inr ⟨_, h, .enter hclosed hnew⟩
  | setParent parent =>
    rcases onCurrent_cases "set_parent" (fun c => ((), { c with parent := some parent })) t with
      h | ⟨cls, c, hopen, hc, h⟩
    · exact .inl h
    · exact .inr ⟨_, h, .change rfl hopen hc⟩
  | addField name ty =>
    rcases onCurrent_cases "add_var" (·.insertMember name (.value ty)) t with
      ⟨e, h⟩ | ⟨cls, c, hopen, hc, h⟩
    · exact .inl ⟨e, congrArg Outcome.forget h⟩
    · exact .inr ⟨_, congrArg Outcome.forget h, .change rfl hopen hc⟩
  | addMethod s =>
    rcases onCurrent_cases "add_method" (·.insertMethod s) t with ⟨e, h⟩ | ⟨cls, c, hopen, hc, h⟩
    · exact .inl ⟨e, congrArg Outcome.forget h⟩
    · exact .inr ⟨_, congrArg Outcome.forget h, .change rfl hopen hc⟩
  | leave => exact .inr ⟨_, rfl, .leave⟩

theorem Op.name_of_change (hf : op.change? = some f) (c : ClassInfo) : (f c).name = c.name := by
  cases op <;> cases hf <;> rfl

/-- A changed record has the methods it had, or is given one more. -/
theorem Op.methods_of_change (hf : op.change? = some f) (c : ClassInfo) :
    (f c).methods = c.methods ∨ ∃ s, (f c).methods = c.methods.insert s := by
  cases op with
  | enter | leave => cases hf
  | setParent | addField =>
    cases hf
    exact .inl rfl
  | addMethod s =>
    cases hf
    exact .inr ⟨s, rfl⟩

/-- A class that is given a method keeps the methods it has. -/
theorem Op.mem_methods_of_change (hf : op.change? = some f) {s : Signature}
    (hs : s ∈ c.methods.toList) : s ∈ (f c).methods.toList := by
  rcases Op.methods_of_change hf c with h | ⟨u, h⟩
  · rw [h]
    exact hs
  · rw [h]
    exact MethodSet.mem_insert_iff.mpr (.inl hs)

/-- What the effects keep, every operation keeps. -/
theorem Op.keeps {I : ClassTable → Prop} (op : Op) (heffect : ∀ t', t.Effect op t' → I t')
    (h : I t) : I (op.step t).state := by
  rcases op.step_cases t with ⟨e, he⟩ | ⟨t', ht', heff⟩
  · rw [he]
    exact h
  · rw [ht']
    exact heffect t' heff

theorem run_keeps {I : ClassTable → Prop} (hstep : ∀ t t' op, t.Effect op t' → I t → I t') :
    ∀ (ops : List Op) {t : ClassTable}, I t → I (t.run ops)
  | [], _, h => h
  | op :: rest, t, h => by
    have hnext : I (op.step t).state := op.keeps (fun t' heff => hstep t t' op heff h) h
    exact run_keeps hstep rest hnext

/-- What holds of the record of every class that has just been entered, and is kept by the change to
the open one, holds of every record. -/
theorem Effect.forall_records {I : String → ClassInfo → Prop} (heff : t.Effect op t')
    (hfresh : ∀ name, op = .enter name → I name (fresh name))
    (hchange : ∀ f cls c, op.change? = some f → t.current = some cls → t.find? cls = some c →
      I cls c → I cls (f c))
    (h : ∀ cls c, t.find? cls = some c → I cls c) : ∀ cls c, t'.find? cls = some c → I cls c := by
  intro cls c hc
  cases heff with
  | @enter name hclosed hnew =>
    rw [find?_extend] at hc
    split at hc
    next heq =>
      cases hc
      exact heq ▸ hfresh name rfl
    next => exact h cls c hc
  | change hf hopen hd =>
    rw [find?_update] at hc
    split at hc
    next heq =>
      subst heq
      rw [hd, Option.map_some] at hc
      cases hc
      exact hchange _ _ _ hf hopen hd (h _ _ hd)
    next => exact h cls c hc
  | leave => exact h cls c hc

/-! ### Names, in the order in which they were entered -/

theorem enters_of_change (hf : op.change? = some f) (t : ClassTable) : op.enters t = [] := by
  cases op <;> cases hf <;> rfl

/-- One operation adds the class it enters, and takes none away. -/
theorem Op.order_step (op : Op) (t : ClassTable) :
    (op.step t).state.order = t.order ++ op.enters t := by
  rcases op.step_cases t with ⟨e, he⟩ | ⟨t', ht', heff⟩
  · have hnone : op.enters t = [] := by
      cases op with
      | enter name =>
        show (ClassTable.enter name t).onOk _ = []
        rw [show ClassTable.enter name t = .error e t from he]
        rfl
      | _ => rfl
    rw [he, hnone, List.append_nil]
    rfl
  · rw [ht']
    cases heff with
    | enter hclosed hnew =>
      rename_i name
      have hone : (Op.enter name).enters t = [name] := by
        show (ClassTable.enter name t).onOk _ = [name]
        rw [show ClassTable.enter name t = .ok () _ from ht']
        rfl
      rw [hone]
      rfl
    | change hf =>
      rw [enters_of_change hf, List.append_nil]
      rfl
    | leave => exact (List.append_nil _).symm

/-- **The order is that in which the classes were entered.** -/
theorem order_run : ∀ (ops : List Op) (t : ClassTable),
    (t.run ops).order = t.order ++ t.entered ops
  | [], t => (List.append_nil _).symm
  | op :: rest, t => by
    rw [run, order_run rest, op.order_step, entered, List.append_assoc]

/-! ### Tables that operations lead to -/

/-- The parts of the table are in step, the open class is the last, and each class has the
constructor it started out with. -/
structure Sound (t : ClassTable) : Prop where
  inStep : t.InStep
  last : ∀ cls, t.current = some cls → t.order.getLast? = some cls
  initial : ∀ cls c, t.find? cls = some c → .ofConstructor cls [] ∈ c.methods.toList

theorem sound_empty : Sound .empty :=
  ⟨.empty, fun _ h => (nomatch h), fun _ _ h => (nomatch h)⟩

theorem Effect.inStep (heff : t.Effect op t') (h : t.InStep) : t'.InStep := by
  cases heff with
  | enter hclosed hnew => exact h.enter hnew
  | change hf => exact h.update (Op.name_of_change hf) _
  | leave => exact h.leave

theorem mem_methods_fresh (name : String) :
    Signature.ofConstructor name [] ∈ (fresh name).methods.toList :=
  MethodSet.mem_insert_iff.mpr (.inr ⟨rfl, List.forall_mem_nil _⟩)

theorem Effect.sound (heff : t.Effect op t') (h : t.Sound) : t'.Sound where
  inStep := heff.inStep h.inStep
  last := by
    cases heff with
    | enter hclosed hnew =>
      intro cls hcls
      rw [← Option.some.inj hcls]
      exact List.getLast?_concat
    | change => exact h.last
    | leave => exact fun cls hcls => (nomatch hcls)
  initial := heff.forall_records (fun name _ => mem_methods_fresh name)
    (fun f cls c hf _ _ hc => Op.mem_methods_of_change hf hc) h.initial

theorem sound_run (ops : List Op) : (run .empty ops).Sound :=
  run_keeps (fun _ _ _ heff h => heff.sound h) ops sound_empty

/-- **No operation changes the record of a class that is not open.** -/
theorem Op.find?_step (op : Op) (hclosed : t.current ≠ some cls) (hc : t.find? cls = some c) :
    (op.step t).state.find? cls = some c := by
  refine op.keeps (I := fun t => t.find? cls = some c) (fun t' heff => ?_) hc
  cases heff with
  | @enter name _ hnew =>
    have hne : cls ≠ name := by
      rintro rfl
      rw [contains, hc] at hnew
      cases hnew
    rw [find?_extend, if_neg hne, hc]
  | @change _ _ opened _ _ hopen =>
    have hne : cls ≠ opened := by
      rintro rfl
      exact hclosed hopen
    rw [find?_update, if_neg hne, hc]
  | leave => exact hc

/-! ### The constructor that every class has -/

/-- An overload with just the types of the arguments is what the set has under that key. -/
theorem find?_overloads (m : MethodSet) (s : Signature) :
    (m.overloads s.name).find? (·.params == s.params) = m.find? s := by
  simp only [MethodSet.overloads, List.find?_filter, MethodSet.find?, Signature.sameKey,
    Bool.decide_and, Bool.decide_eq_true]

/-- The constructor that takes nothing is found by its key, and by a creation without arguments. -/
theorem Sound.initial_found (h : t.Sound) (hc : t.find? cls = some c) :
    c.methods.find? (.ofConstructor cls []) = some (.ofConstructor cls []) ∧
      t.resolveConstructor cls [] = .ok (.ofConstructor cls []) := by
  have hfind := c.methods.find?_of_mem (h.initial cls c hc)
  have hoverload : t.overloadIn c constructorName [] = .ok (some (.ofConstructor cls [])) := by
    have hexact := (find?_overloads c.methods (.ofConstructor cls [])).trans hfind
    unfold overloadIn
    simp only [Signature.ofConstructor] at hexact
    simp only [hexact]
    rfl
  refine ⟨hfind, ?_⟩
  unfold resolveConstructor
  simp only [hc, hoverload]

/-- **A table after any operations.** Its order has the classes that were entered, once each and in
that order. Just these have a record, and a record is kept under the name that it has, so that the
classes listed are those of the order. The open class has a record and is the last. A further
operation leaves the record of every other class as it is. Every class has the constructor that takes
nothing and returns an object of the class, and this is the one that a creation without arguments
means. -/
theorem sound_after_operations (ops : List Op) :
    ((run .empty ops).order = entered .empty ops ∧ (run .empty ops).order.Nodup) ∧
    ((∀ cls, cls ∈ (run .empty ops).order ↔ ((run .empty ops).records.get? cls).isSome = true) ∧
      (run .empty ops).size = (run .empty ops).order.length) ∧
    ((∀ cls c, (run .empty ops).records.get? cls = some c → c.name = cls) ∧
      (run .empty ops).classes.map ClassInfo.name = (run .empty ops).order) ∧
    (∀ cls, (run .empty ops).current = some cls → (run .empty ops).contains cls = true ∧
      (run .empty ops).order.getLast? = some cls) ∧
    (∀ (op : Op) cls c, (run .empty ops).current ≠ some cls → (run .empty ops).find? cls = some c →
      (op.step (run .empty ops)).state.find? cls = some c) ∧
    ∀ cls, (run .empty ops).contains cls = true →
      (∃ c, (run .empty ops).find? cls = some c ∧
        c.methods.find? (.ofConstructor cls []) = some ⟨constructorName, [], .cls cls⟩) ∧
      (run .empty ops).resolveConstructor cls [] = .ok ⟨constructorName, [], .cls cls⟩ := by
  have hsound := sound_run ops
  have hstep := hsound.inStep
  refine ⟨⟨order_run ops .empty, hstep.nodup⟩, ⟨hstep.listed, hstep.size⟩,
    ⟨hstep.named, hstep.names⟩, fun cls hcls => ?_, fun op cls c => op.find?_step, fun cls hcls => ?_⟩
  · have hlast := hsound.last cls hcls
    exact ⟨(hstep.listed cls).mp (List.mem_of_getLast? hlast), hlast⟩
  · obtain ⟨c, hc⟩ := Option.isSome_iff_exists.mp hcls
    obtain ⟨hfind, hresolve⟩ := hsound.initial_found hc
    exact ⟨⟨c, hc, hfind⟩, hresolve⟩

/-- Two classes, entered among operations that are refused. The first is given another method with
the key of its constructor, the second is its own parent. -/
def strewn : List Op := [
  .addField "x" .int, .enter "A", .addMethod ⟨constructorName, [], .int⟩, .enter "B",
  .addMethod (.ofConstructor "A" [.int]), .leave, .setParent "A", .enter "A", .enter "B",
  .setParent "B"]

/-- What the operations of `strewn` leave of class `A`. -/
theorem strewn_sound : entered .empty strewn = ["A", "B"] ∧
    (run .empty strewn).order = ["A", "B"] ∧
    (run .empty strewn).current = some "B" ∧ (run .empty strewn).contains "A" = true ∧
    (∀ c, (run .empty strewn).records.get? "A" = some c → c.name = "A") ∧
    (run .empty strewn).resolveConstructor "A" [] = .ok ⟨constructorName, [], .cls "A"⟩ ∧
    ∀ (op : Op) c, (run .empty strewn).find? "A" = some c →
      (op.step (run .empty strewn)).state.find? "A" = some c := by
  obtain ⟨⟨horder, -⟩, ⟨hlisted, -⟩, ⟨hnamed, -⟩, -, hkept, hinitial⟩ :=
    sound_after_operations strewn
  have hentered : entered .empty strewn = ["A", "B"] := by decide +kernel
  have hA : (run .empty strewn).contains "A" = true := by
    refine (hlisted "A").mp ?_
    rw [horder, hentered]
    exact List.mem_cons_self ..
  have hcurrent : (run .empty strewn).current = some "B" := by decide +kernel
  refine ⟨hentered, horder.trans hentered, hcurrent, hA, hnamed "A", (hinitial "A" hA).2,
    fun op c => hkept op "A" c ?_⟩
  rw [hcurrent]
  decide

end ClassTable

end ClassLang
