import ClassCollapse.Markup.Piece
import ClassCollapse.Text.Bytes

/-!
# Class lists found in markup

A scan reports each class attribute whose value is not blank, with the place of the value and the
name of the last opening tag before it.
-/

namespace ClassCollapse

/-- A class list and where it stands, in bytes. -/
structure ScannedClass where
  tag : Option String
  classList : String
  offset : Nat
  length : Nat
deriving DecidableEq

namespace Markup

/-- The class lists among pieces that start at `offset`, where `tag` is the last tag name. -/
def foundIn (offset : Nat) (tag : Option String) : List Piece → List ScannedClass
  | [] => []
  | piece :: rest =>
    let next := offset + Text.byteCount piece.text
    match piece with
    | .openTag name => foundIn next (some (String.ofList name)) rest
    | .classValue lead quote value =>
      if value.all Text.isBlank then foundIn next tag rest
      else ⟨tag, String.ofList value, offset + Text.byteCount (lead ++ [quote.char]),
        Text.byteCount value⟩ :: foundIn next tag rest
    | .other _ => foundIn next tag rest

def scan (content : String) : List ScannedClass :=
  foundIn 0 none (pieces content.toList)

end Markup

end ClassCollapse
