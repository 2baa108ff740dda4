/-!
# Blank characters, trimming and words

A blank is a character with the Unicode property White_Space. A text is trimmed by dropping blanks
at its ends, and its words are its longest runs of other characters, from left to right.
-/

namespace ClassCollapse.Text

/-- Decides the Unicode property White_Space. -/
def isBlank (c : Char) : Bool :=
  let n := c.toNat
  (0x9 ≤ n && n ≤ 0xD) || n == 0x20 || n == 0x85 || n == 0xA0 || n == 0x1680 ||
    (0x2000 ≤ n && n ≤ 0x200A) || n == 0x2028 || n == 0x2029 || n == 0x202F || n == 0x205F ||
    n == 0x3000

/-- Adds a character in front of the first word. -/
def extendFirst (c : Char) : List (List Char) → List (List Char)
  | [] => [[c]]
  | w :: ws => (c :: w) :: ws

/-- The words of a list of characters: a character that is not blank starts a word
where a blank or the end follows it, and extends the next word otherwise. -/
def wordsOf : List Char → List (List Char)
  | [] => []
  | c :: cs =>
    if isBlank c then wordsOf cs
    else match cs with
      | [] => [[c]]
      | d :: _ => if isBlank d then [c] :: wordsOf cs else extendFirst c (wordsOf cs)

def words (s : String) : List String :=
  (wordsOf s.toList).map String.ofList

def trimStart (s : String) : String :=
  String.ofList (s.toList.dropWhile isBlank)

def dropTrailing (cs : List Char) : List Char :=
  (cs.reverse.dropWhile isBlank).reverse

def trimEnd (s : String) : String :=
  String.ofList (dropTrailing s.toList)

def trim (s : String) : String :=
  String.ofList (dropTrailing (s.toList.dropWhile isBlank))

/-- A text without any other characters than blanks; the empty text is one. -/
def isBlankText (s : String) : Bool :=
  s.toList.all isBlank

def join (separator : String) : List String → String
  | [] => ""
  | [s] => s
  | s :: t :: rest => s ++ separator ++ join separator (t :: rest)

end ClassCollapse.Text
