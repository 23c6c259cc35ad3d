/-!
# Void tags

A void element has no content and is written without a closing tag. The case of the
letters of a tag does not matter.
-/

namespace BemMarkup.Html

/-- The tags of void elements, in small letters. -/
def voidTags : List String :=
  ["area", "base", "basefont", "br", "col", "command", "embed", "frame", "hr", "img",
    "input", "isindex", "keygen", "link", "meta", "param", "source", "track", "wbr"]

/-- The tag with its ASCII letters in small. -/
def lowerTag (tag : String) : String := String.ofList (tag.toList.map Char.toLower)

/-- Whether an element of this tag is void. -/
def isVoidTag (tag : String) : Bool := voidTags.contains (lowerTag tag)

end BemMarkup.Html
