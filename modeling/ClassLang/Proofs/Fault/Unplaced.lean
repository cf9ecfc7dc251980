import ClassLang.Check.Program

/-!
# Faults are raised without a place

Whatever a check asks of its environment or of the class table, a fault that comes of it carries no
place: the node that asked is the first to give it one. The last of these questions are those that
the nodes of a tree ask themselves (`Env.unplaced_useVar`, `ClassTable.unplaced_bindCall`,
`ClassTable.unplaced_requireStorage` and the like); the others are the questions they are made of.
-/

namespace ClassLang

variable {α β : Type}

/-- A fault that the result is has no place. -/
def Unplaced (x : Except Failure α) : Prop := ∀ f sp, x = .error (.fault f sp) → sp = .unknown

namespace Unplaced

theorem ok (a : α) : Unplaced (.ok a) := fun _ _ h => by cases h

theorem raise (f : Fault) : Unplaced (f.raise : Except Failure α) := by
  intro _ _ h
  cases h
  rfl

theorem misuse (m : Misuse) : Unplaced (m.raise : Except Failure α) := fun _ _ h => by cases h

/-- A failure that is handed on. -/
theorem passed {x : Except Failure α} {e : Failure} (h : Unplaced x) (hx : x = .error e) :
    Unplaced (.error e : Except Failure β) := by
  intro f sp he
  cases he
  exact h f sp hx

theorem eq_raise {x : Except Failure α} {f : Fault} {sp : Span} (h : Unplaced x)
    (hx : x = .error (.fault f sp)) : x = f.raise := by
  rw [hx, h f sp hx]
  rfl

/-- A requirement that `p` holds. -/
theorem require {p : Prop} [Decidable p] {f : Fault} (a : α) :
    Unplaced (if p then .ok a else f.raise) := by
  split
  · exact .ok a
  · exact .raise f

end Unplaced

theorem unplaced_requireSame (actual expected : Ty) : Unplaced (requireSame actual expected) :=
  .require ()

theorem unplaced_ruleType (key : Signature) : Unplaced (ruleType key) := by
  unfold ruleType
  split
  · exact .ok _
  · exact .raise _

/-! ### The class table -/

namespace ClassTable

variable (t : ClassTable) (cls name : String) (args : List Ty)

theorem unplaced_requireDeclared (ty : Ty) : Unplaced (t.requireDeclared ty) := by
  unfold requireDeclared
  split
  · exact .require ()
  · exact .ok ()

theorem unplaced_requireStorage (ty : Ty) : Unplaced (t.requireStorage ty name) := by
  unfold requireStorage
  split
  · exact (t.unplaced_requireDeclared ty).passed ‹_›
  · split
    · exact .raise _
    · exact .ok ()

theorem unplaced_requireParams : ∀ params : List (Ty × String), Unplaced (t.requireParams params)
  | [] => .ok ()
  | (ty, x) :: rest => by
    unfold requireParams
    split
    · exact (t.unplaced_requireStorage x ty).passed ‹_›
    · exact unplaced_requireParams rest

theorem unplaced_requireFits (actual expected : Ty) : Unplaced (t.requireFits actual expected) :=
  .require ()

theorem unplaced_requireInstantiable (ty : Ty) : Unplaced (t.requireInstantiable ty) := by
  unfold requireInstantiable
  split
  · exact (t.unplaced_requireDeclared ty).passed ‹_›
  · split
    · exact .ok _
    · exact .raise _

theorem unplaced_fieldTy : Unplaced (t.fieldTy cls name) := by
  unfold fieldTy
  split
  · exact .ok _
  · exact .raise _
  · split <;> exact .raise _

theorem unplaced_overloadIn (c : ClassInfo) : Unplaced (t.overloadIn c name args) := by
  unfold overloadIn
  dsimp only
  split
  · exact .ok _
  · split
    · exact .ok _
    · exact .ok _
    · exact .raise _

theorem unplaced_overloadAlong : ∀ cs : List ClassInfo, Unplaced (t.overloadAlong name args cs)
  | [] => .ok none
  | c :: rest => by
    unfold overloadAlong
    split
    · exact unplaced_overloadAlong rest
    · exact t.unplaced_overloadIn name args c

theorem unplaced_resolveMethod : Unplaced (t.resolveMethod cls name args) := by
  unfold resolveMethod
  split
  · split
    · exact (t.unplaced_overloadAlong name args _).passed ‹_›
    · exact .ok _
    · exact .raise _
  · exact .misuse _

theorem unplaced_resolveCall : Unplaced (t.resolveCall cls name args) := by
  have hresolve := t.unplaced_resolveMethod cls name args
  unfold resolveCall
  split
  · split
    · exact .raise _
    · exact hresolve.passed ‹_›
  · exact hresolve

theorem unplaced_resolveConstructor : Unplaced (t.resolveConstructor cls args) := by
  unfold resolveConstructor
  split
  · exact .misuse _
  · split
    · exact (t.unplaced_overloadIn constructorName args _).passed ‹_›
    · exact .ok _
    · exact .raise _

theorem unplaced_bindMethod (s : Signature) : Unplaced (t.bindMethod cls s) := by
  unfold bindMethod
  split
  · exact .ok _
  · exact .misuse _

theorem unplaced_bindCall : Unplaced (t.bindCall cls name args) := by
  unfold bindCall
  split
  · exact (t.unplaced_resolveCall cls name args).passed ‹_›
  · exact t.unplaced_bindMethod cls _

theorem unplaced_bindConstructor : Unplaced (t.bindConstructor cls args) := by
  unfold bindConstructor
  split
  · exact (t.unplaced_resolveConstructor cls args).passed ‹_›
  · exact t.unplaced_bindMethod cls _

end ClassTable

/-! ### The environment -/

namespace Env

variable (env : Env) (object : Option String) (name : String)

theorem unplaced_receiver : Unplaced env.receiver := by
  unfold receiver
  split
  · exact .ok _
  · exact .raise _

theorem unplaced_currentMethod : Unplaced env.currentMethod := by
  unfold currentMethod
  split
  · exact .ok _
  · exact .misuse _

theorem unplaced_lookupVar : Unplaced (env.lookupVar name) := by
  unfold lookupVar
  split
  · exact .ok _
  · exact .raise _
  · split
    · exact .raise _
    · split
      · exact (env.table.unplaced_fieldTy _ name).passed ‹_›
      · exact .ok _

theorem unplaced_objectTy : Unplaced (env.objectTy object) := by
  unfold objectTy
  dsimp only
  split
  · split
    · exact env.unplaced_receiver.passed ‹_›
    · exact .ok _
  · exact env.unplaced_lookupVar _

theorem unplaced_objectClass : Unplaced (env.objectClass object) := by
  unfold objectClass
  split
  · exact (env.unplaced_objectTy object).passed ‹_›
  · exact .ok _
  · exact .raise _

theorem unplaced_useVar : Unplaced (env.useVar object name) := by
  unfold useVar
  split
  · split
    · exact (env.unplaced_lookupVar name).passed ‹_›
    · exact .ok _
  · split
    · exact (env.unplaced_objectClass _).passed ‹_›
    · split
      · exact (env.table.unplaced_fieldTy _ name).passed ‹_›
      · exact .ok _

end Env

end ClassLang
