/-!
# Names with a fixed meaning

Neither is a keyword of the trees: a program may use both as ordinary names, and then they meet
what the checker itself puts under them.
-/

namespace ClassLang

/-- The name under which a method finds the object it was called on. -/
def receiverName : String := "this"

/-- The name under which a class keeps its constructors. -/
def constructorName : String := "cons"

end ClassLang
