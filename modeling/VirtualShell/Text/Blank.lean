/-! White space, in the sense of the Unicode property, and the ways of cutting text at it. -/
namespace VirtualShell.Text

/-- The characters of the Unicode property White_Space. -/
def isBlank (c : Char) : Bool :=
  let n := c.toNat
  (9 ≤ n && n ≤ 13) || n == 0x20 || n == 0x85 || n == 0xA0 || n == 0x1680 ||
  (0x2000 ≤ n && n ≤ 0x200A) || n == 0x2028 || n == 0x2029 || n == 0x202F || n == 0x205F ||
  n == 0x3000

/-- Text without its leading blanks. -/
def trimStart (s : List Char) : List Char := s.dropWhile isBlank

/-- Text without its trailing blanks. -/
def trimEnd (s : List Char) : List Char := (s.reverse.dropWhile isBlank).reverse

/-- Text without the blanks at either end. -/
def trim (s : List Char) : List Char := trimEnd (trimStart s)

/-- The longest stretch of text that holds no character of the class, and what follows it. -/
def cut (p : Char → Bool) : List Char → List Char × List Char
  | [] => ([], [])
  | c :: r => if p c then ([], c :: r) else ((c :: (cut p r).1), (cut p r).2)

theorem cut_append (p : Char → Bool) (s : List Char) : (cut p s).1 ++ (cut p s).2 = s := by
  induction s with
  | nil => rfl
  | cons c r ih => by_cases h : p c <;> simp [cut, h, ih]

theorem cut_rest_length_le (p : Char → Bool) (s : List Char) : (cut p s).2.length ≤ s.length := by
  have h := congrArg List.length (cut_append p s)
  simp only [List.length_append] at h
  omega

/-- The words of a text: its maximal stretches without blanks, in order. -/
def words (s : List Char) : List (List Char) :=
  match s with
  | [] => []
  | c :: r =>
    if isBlank c then words r
    else (c :: (cut isBlank r).1) :: words (cut isBlank r).2
termination_by s.length
decreasing_by
  · simp
  · have := cut_rest_length_le isBlank r
    simp
    omega

/-- Whether `part` occurs somewhere in the text. -/
def holds (part : List Char) : List Char → Bool
  | [] => part.isEmpty
  | c :: r => part.isPrefixOf (c :: r) || holds part r

/-- Text with its ASCII capitals written small; every other character is kept. -/
def lowerAscii (s : List Char) : List Char := s.map Char.toLower

/-- Text without the blanks at either end. -/
def trimmed (s : String) : String := .ofList (trim s.toList)

/-- Whether nothing but blanks stands in the text. -/
def isBlankText (s : String) : Bool := s.toList.all isBlank

/-- The words of a text, parted by blanks. -/
def wordsOf (s : String) : List String := (words s.toList).map .ofList

/-- The pieces of a text between its line breaks. -/
def linesOf (s : String) : List String := (s.toList.splitOn '\n').map .ofList

end VirtualShell.Text
