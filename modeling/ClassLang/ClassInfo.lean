import ClassLang.MethodSet
import ClassLang.NameMap

/-!
# What is known of one class

Its parent, its members by name, the names of its members in the order they were first given, and
its methods, constructors among them.

The order is a list of its own. Taking a member away leaves its place there, so a member put in
again under that name is listed at both places (`membersInOrder`).
-/

namespace ClassLang

/-- The record of a declared class. -/
structure ClassInfo where
  name : String
  parent : Option String := none
  members : NameMap Entity := .empty
  methods : MethodSet := .empty
  order : List String := []
deriving DecidableEq

namespace ClassInfo

/-- The type of the objects of the class. -/
def ty (c : ClassInfo) : Ty := .cls c.name

/-- Puts in a member, in place of the one of that name; answers with what that was, if there was
one. -/
def insertMember (c : ClassInfo) (name : String) (e : Entity) : Option Entity × ClassInfo :=
  let previous := c.members.get? name
  (previous, { c with
    members := c.members.insert name e
    order := if previous.isSome then c.order else c.order ++ [name] })

/-- The class without the member; its place in the order stays. -/
def eraseMember (c : ClassInfo) (name : String) : ClassInfo :=
  { c with members := c.members.erase name }

/-- Puts in a method, unless there is one of its key; answers whether it was put in. -/
def insertMethod (c : ClassInfo) (s : Signature) : Bool × ClassInfo :=
  (!c.methods.contains s, { c with methods := c.methods.insert s })

/-- The members, at each place of the order that names one. -/
def membersInOrder (c : ClassInfo) : List (String × Entity) :=
  c.order.filterMap fun name => (c.members.get? name).map fun e => (name, e)

@[simp] theorem name_insertMember (c : ClassInfo) (name : String) (e : Entity) :
    (c.insertMember name e).2.name = c.name := rfl

@[simp] theorem name_insertMethod (c : ClassInfo) (s : Signature) :
    (c.insertMethod s).2.name = c.name := rfl

@[simp] theorem methods_insertMethod (c : ClassInfo) (s : Signature) :
    (c.insertMethod s).2.methods = c.methods.insert s := rfl

@[simp] theorem get?_insertMember (c : ClassInfo) (name other : String) (e : Entity) :
    (c.insertMember name e).2.members.get? other =
      if other = name then some e else c.members.get? other :=
  NameMap.get?_insert ..

end ClassInfo

end ClassLang
