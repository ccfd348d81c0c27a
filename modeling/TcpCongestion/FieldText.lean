import Mathlib.Algebra.Group.Nat.Defs
import Mathlib.Data.List.Basic
import Mathlib.Data.Nat.Digits.Lemmas

/-! Text in lines of blank-separated decimal numbers: how such a line is written, with fields
padded on the left to a least width, and how its words are read again. -/
namespace TcpCongestion.FieldText

/-- `%d`. -/
def decimal (i : Int) : List Char :=
  if i < 0 then '-' :: Nat.toDigits 10 i.natAbs else Nat.toDigits 10 i.natAbs

/-- The number such a text stands for. -/
def readDecimal : List Char → Int
  | '-' :: digits => -(Nat.ofDigitChars 10 digits 0 : Int)
  | digits => Nat.ofDigitChars 10 digits 0

/-- Blanks on the left up to `width`, as in `%16d`. -/
def padded (width : Nat) (text : List Char) : List Char :=
  List.replicate (width - text.length) ' ' ++ text

def words (text : List Char) : List (List Char) :=
  (text.splitOn ' ').filter (!·.isEmpty)

/-- The lines that are ended. -/
def lines (text : List Char) : List (List Char) :=
  (text.splitOn '\n').dropLast

/-! ## Decimal numbers -/

theorem decimal_ne_nil (i : Int) : decimal i ≠ [] := by
  rw [decimal]
  split
  · exact List.cons_ne_nil _ _
  · exact Nat.toDigits_ne_nil

theorem mem_decimal {i : Int} {c : Char} (mem : c ∈ decimal i) : c = '-' ∨ c.isDigit = true := by
  rw [decimal] at mem
  split at mem
  · rcases List.mem_cons.mp mem with sign | digit
    · exact .inl sign
    · exact .inr (Nat.isDigit_of_mem_toDigits (by decide) (by decide) digit)
  · exact .inr (Nat.isDigit_of_mem_toDigits (by decide) (by decide) mem)

theorem not_mem_decimal {c : Char} (i : Int) (sign : c ≠ '-') (digit : c.isDigit = false) :
    c ∉ decimal i := by
  intro mem
  rcases mem_decimal mem with same | isDigit
  · exact sign same
  · rw [digit] at isDigit
    cases isDigit

theorem readDecimal_digits (n : Nat) : readDecimal (Nat.toDigits 10 n) = n := by
  unfold readDecimal
  split
  · rename_i digits opens
    have digit : '-'.isDigit = true := by
      apply Nat.isDigit_of_mem_toDigits (b := 10) (n := n) (by decide) (by decide)
      rw [opens]
      exact List.mem_cons_self
    cases digit
  · rw [Nat.ofDigitChars_ten_toDigits]

theorem readDecimal_decimal (i : Int) : readDecimal (decimal i) = i := by
  rw [decimal]
  split
  · rename_i negative
    rw [readDecimal, Nat.ofDigitChars_ten_toDigits]
    omega
  · rw [readDecimal_digits]
    omega

/-! ## Words and lines -/

theorem words_append (before after : List Char) :
    words (before ++ ' ' :: after) = words before ++ words after := by
  rw [words, List.splitOn_append_cons_self, List.filter_append]
  rfl

theorem words_blanks (count : Nat) (text : List Char) :
    words (List.replicate count ' ' ++ text) = words text := by
  induction count with
  | zero => rfl
  | succ count ih =>
    rw [List.replicate_succ, List.cons_append, ← ih]
    exact words_append [] _

theorem words_padded (width : Nat) (text : List Char) : words (padded width text) = words text :=
  words_blanks _ text

theorem words_word {word : List Char} (nonempty : word ≠ []) (blank : ' ' ∉ word) :
    words word = [word] := by
  rw [words, List.splitOn_eq_singleton blank]
  simpa using nonempty

theorem lines_append (line text : List Char) (ended : '\n' ∉ line) :
    lines (line ++ '\n' :: text) = line :: lines text := by
  rw [lines, List.splitOn_append_cons_self_of_not_mem ended,
    List.dropLast_cons_of_ne_nil (List.splitOn_ne_nil _ _)]
  rfl

theorem lines_flatten (all : List (List Char)) (ended : ∀ line ∈ all, '\n' ∉ line) :
    lines (all.flatMap (· ++ ['\n'])) = all := by
  induction all with
  | nil => rfl
  | cons line rest ih =>
    rw [List.flatMap_cons, List.append_assoc, List.singleton_append,
      lines_append line _ (ended line List.mem_cons_self),
      ih fun other mem => ended other (List.mem_cons_of_mem _ mem)]

/-! ## Lengths -/

theorem decimal_length (width : Nat) (pos : 0 < width) {i : Int} (small : i.natAbs < 10 ^ width) :
    (decimal i).length ≤ width + 1 := by
  have digits := Nat.toDigits_length 10 i.natAbs width pos small
  rw [decimal]
  split
  · exact Nat.succ_le_succ digits
  · exact Nat.le_succ_of_le digits

theorem padded_length (width : Nat) (text : List Char) :
    (padded width text).length = max width text.length := by
  rw [padded, List.length_append, List.length_replicate]
  omega

end TcpCongestion.FieldText
