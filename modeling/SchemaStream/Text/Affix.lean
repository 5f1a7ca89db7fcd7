/-!
# Beginnings of texts
-/

namespace SchemaStream

namespace Text

/-- What follows `start` in a text that begins with it. -/
def after? (start text : String) : Option String :=
  (start.toList.isPrefixOf? text.toList).map String.ofList

def begins (start text : String) : Bool := start.toList.isPrefixOf text.toList

end Text

end SchemaStream
