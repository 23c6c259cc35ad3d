/-!
# Classes of elements

An element of a block gets the class `block__element`. A template has one or more block
names, and it also goes by the names of its ancestors, so an element gets one class for
each block name along the chain.

The chain is kept as a list of class *stems*: a block name with its delimiter for every
name, the template's own first, and an empty stem at the end. Joining the stems with the
element name and a space between each two gives every class but leaves a space at the
end, which `composeClasses` takes away.

## Main statements

* `classStems_none`, `classStems_some`: the stems of a chain are those of its templates in
  a row, and one empty stem at the end.
-/

namespace BemMarkup.Template

/-- What stands between a block name and an element name. -/
def nameDelimiter : String := "__"

/-- The stem of the classes of a block. -/
def classStem (block : String) : String := block ++ nameDelimiter

/-- The stems of a template with the given block names, in front of those of its parent. -/
def classStems (blocks : List String) (parent : Option (List String)) : List String :=
  blocks.map classStem ++ parent.getD [""]

@[simp] theorem classStems_none (blocks : List String) :
    classStems blocks none = blocks.map classStem ++ [""] := rfl

@[simp] theorem classStems_some (blocks stems : List String) :
    classStems blocks (some stems) = blocks.map classStem ++ stems := rfl

/-- The text without the space at its end. -/
def dropEndSpace (cs : List Char) : List Char :=
  if cs.getLast? = some ' ' then cs.dropLast else cs

/-- The classes of an element with the given names: for each slot that is not empty, one
class for every stem but the last. -/
def composeClasses (stems : List String) (names : List (Option String)) : String :=
  let joined := String.join (names.reduceOption.map fun name => (name ++ " ").intercalate stems)
  String.ofList (dropEndSpace joined.toList)

end BemMarkup.Template
