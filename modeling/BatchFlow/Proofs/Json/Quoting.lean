import BatchFlow.Json.Printer
import BatchFlow.Json.Reader
import Mathlib.Tactic.SplitIfs

/-!
# Reading quoted text

Any text at all is read back from between its quotes. A character is written by itself or as an
escape, and the reader takes either for one part; an escape by number stands for a control
character, so it is never half of a pair. A quote inside the text is escaped, so the first one that
is not closes it.
-/

namespace BatchFlow
namespace Json

theorem hexValue?_hexDigit : ∀ n < 16, hexValue? (hexDigit n) = some n := by decide

/-- A control character is given by two hexadecimal digits after two zeros. -/
theorem hexUnit?_hexDigit {n : Nat} (h : n < 32) :
    hexUnit? '0' '0' (hexDigit (n / 16)) (hexDigit (n % 16)) = some n := by
  have hzero : hexValue? '0' = some 0 := by decide
  have hhigh := hexValue?_hexDigit (n / 16) (by omega)
  have hlow := hexValue?_hexDigit (n % 16) (by omega)
  simp only [hexUnit?, hzero, hhigh, hlow, bind, Option.bind, pure]
  congr 1
  omega

/-- A code unit below the surrogates stands for a character, whatever comes after it. -/
theorem joinPieces?_unit {n : Nat} (h : n < 0xD800) (parts : List Piece) :
    joinPieces? (.unit n :: parts) = (joinPieces? parts).map (Char.ofNat n :: ·) := by
  have hhigh : isHighSurrogate n = false := by
    simp only [isHighSurrogate, Bool.and_eq_false_iff, decide_eq_false_iff_not]
    omega
  have hlow : isLowSurrogate n = false := by
    simp only [isLowSurrogate, Bool.and_eq_false_iff, decide_eq_false_iff_not]
    omega
  rcases parts with _ | ⟨⟨c⟩ | ⟨m⟩, parts⟩ <;> simp [joinPieces?, hhigh, hlow]

/-- One part that stands for a character, read from what is written for it. -/
structure Piece.Reads (part : Piece) (written : List Char) (c : Char) : Prop where
  pieces?_append : ∀ cs,
    pieces? (written ++ cs) = (pieces? cs).map fun (parts, rest) => (part :: parts, rest)
  joinPieces?_cons : ∀ parts, joinPieces? (part :: parts) = (joinPieces? parts).map (c :: ·)

theorem Piece.reads_escaped {e c : Char} (h : escaped? e = some c) (hu : e ≠ 'u') :
    Piece.Reads (.char c) ['\\', e] c where
  pieces?_append cs := by
    show pieces? ('\\' :: e :: cs) = _
    rw [pieces?, h]
    · cases pieces? cs <;> rfl
    · exact fun _ _ _ _ _ heq => absurd heq hu
  joinPieces?_cons parts := rfl

theorem Piece.reads_unit {c : Char} (h : c.toNat < 32) :
    Piece.Reads (.unit c.toNat)
      ['\\', 'u', '0', '0', hexDigit (c.toNat / 16), hexDigit (c.toNat % 16)] c where
  pieces?_append cs := by
    show pieces? ('\\' :: 'u' :: '0' :: '0' :: _ :: _ :: cs) = _
    rw [pieces?, hexUnit?_hexDigit h]
    cases pieces? cs <;> rfl
  joinPieces?_cons parts := by
    rw [joinPieces?_unit (Nat.lt_trans h (by decide)), Char.ofNat_toNat]

theorem Piece.reads_self {c : Char} (hquote : c ≠ '"') (hbackslash : c ≠ '\\') (h : ¬ c.toNat < 32) :
    Piece.Reads (.char c) [c] c where
  pieces?_append cs := by
    show pieces? (c :: cs) = _
    rw [pieces?, if_neg (by simp [hbackslash, h])]
    · cases pieces? cs <;> rfl
    all_goals simp [hquote, hbackslash]
  joinPieces?_cons parts := rfl

theorem exists_reads_escape (c : Char) : ∃ part : Piece, part.Reads (escape c) c := by
  have hshort : ∀ e, escaped? e = some c → e ≠ 'u' → ∃ part : Piece, part.Reads ['\\', e] c :=
    fun e he hu => ⟨.char c, Piece.reads_escaped he hu⟩
  unfold escape
  split_ifs with hquote hslash hb hf hn hr ht hcontrol
  · exact hshort '"' (by rw [hquote]; rfl) (by decide)
  · exact hshort '\\' (by rw [hslash]; rfl) (by decide)
  · exact hshort 'b' (by rw [hb]; rfl) (by decide)
  · exact hshort 'f' (by rw [hf]; rfl) (by decide)
  · exact hshort 'n' (by rw [hn]; rfl) (by decide)
  · exact hshort 'r' (by rw [hr]; rfl) (by decide)
  · exact hshort 't' (by rw [ht]; rfl) (by decide)
  · exact ⟨_, Piece.reads_unit hcontrol⟩
  · exact ⟨_, Piece.reads_self hquote hslash hcontrol⟩

theorem exists_pieces?_quoted (cs rest : List Char) :
    ∃ parts, pieces? (cs.flatMap escape ++ '"' :: rest) = some (parts, rest) ∧
      joinPieces? parts = some cs := by
  induction cs with
  | nil => exact ⟨[], rfl, rfl⟩
  | cons c cs ih =>
    obtain ⟨parts, hparts, hjoin⟩ := ih
    obtain ⟨part, hpart⟩ := exists_reads_escape c
    refine ⟨part :: parts, ?_, ?_⟩
    · rw [List.flatMap_cons, List.append_assoc, hpart.pieces?_append, hparts]
      rfl
    · rw [hpart.joinPieces?_cons, hjoin]
      rfl

/-- Quoted text is read back, with what follows it. -/
theorem text?_quoted (text : String) (rest : List Char) :
    text? .exact (text.toList.flatMap escape ++ '"' :: rest) = some (text, rest) := by
  obtain ⟨parts, hparts, hjoin⟩ := exists_pieces?_quoted text.toList rest
  simp [text?, hparts, hjoin]

end Json
end BatchFlow
