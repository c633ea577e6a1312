import BatchFlow.Proofs.Json.Integers
import BatchFlow.Proofs.Json.Quoting
import BatchFlow.Proofs.Json.Values
import Mathlib.Data.List.Forall2

/-!
# Reading what was written

The text of a value is read as that value, in either layout: `read?_render`. The numbers in it have
to be integers of 64 bits, since other numbers are kept as the text they had.

Reading goes from the left, so what is said of a part of the text is said with whatever follows it,
as long as that does not go on with a number. Containers are read by one function, so there is one
statement for arrays and objects, about entries that each can be read.
-/

namespace BatchFlow
namespace Json

/-! ### Blanks -/

theorem skipBlanks_append {blanks : List Char} (h : ∀ c ∈ blanks, isBlank c = true)
    (cs : List Char) : skipBlanks (blanks ++ cs) = skipBlanks cs :=
  List.dropWhile_append_of_pos h

theorem skipBlanks_cons {c : Char} (h : isBlank c = false) (cs : List Char) :
    skipBlanks (c :: cs) = c :: cs :=
  List.dropWhile_cons_of_neg (by simp [h])

theorem isBlank_of_mem_gap {layout : Layout} {depth : Nat} {c : Char}
    (h : c ∈ layout.gap depth) : isBlank c = true := by
  cases layout with
  | compact => cases h
  | indented =>
    rcases List.mem_cons.mp h with rfl | h
    · rfl
    · rw [List.eq_of_mem_replicate h]
      rfl

theorem endsNumber_cons {c : Char} (h : c = ',' ∨ c = ']' ∨ c = '}' ∨ isBlank c = true)
    (cs : List Char) : EndsNumber (c :: cs) := by
  rintro _ ⟨⟩
  rcases h with rfl | rfl | rfl | h
  · decide
  · decide
  · decide
  · simp only [isBlank, Bool.or_eq_true, beq_iff_eq] at h
    rcases h with ((rfl | rfl) | rfl) | rfl <;> decide

theorem endsNumber_gap {layout : Layout} {depth : Nat} {cs : List Char} (h : EndsNumber cs) :
    EndsNumber (layout.gap depth ++ cs) := by
  cases layout with
  | compact => exact h
  | indented => exact endsNumber_cons (.inr (.inr (.inr rfl))) _

/-! ### Containers -/

section

variable {α : Type} {entry : List Char → Option (α × List Char)} {closing : Char}

/-- The written entry begins with something that is neither blank nor the closing bracket, and it
is read as the value, whatever comes after it. -/
structure Reads (entry : List Char → Option (α × List Char)) (closing : Char)
    (written : List Char) (value : α) : Prop where
  begins : ∃ c cs, written = c :: cs ∧ isBlank c = false ∧ c ≠ closing
  entry_append : ∀ rest, EndsNumber rest → entry (written ++ rest) = some (value, rest)

theorem Reads.skipBlanks_append {written : List Char} {value : α}
    (h : Reads entry closing written value) (rest : List Char) :
    skipBlanks (written ++ rest) = written ++ rest := by
  obtain ⟨c, cs, rfl, hblank, -⟩ := h.begins
  exact skipBlanks_cons hblank _

/-- What stands behind the first entry of a container, and behind the container. -/
def remainder (layout : Layout) (depth : Nat) (closing : Char) (entries : List (List Char))
    (rest : List Char) : List Char :=
  entries.flatMap (fun entry => ',' :: layout.gap (depth + 1) ++ entry) ++
    (layout.gap depth ++ closing :: rest)

theorem remainder_cons (layout : Layout) (depth : Nat) (closing : Char) (first : List Char)
    (entries : List (List Char)) (rest : List Char) :
    remainder layout depth closing (first :: entries) rest =
      ',' :: (layout.gap (depth + 1) ++ (first ++ remainder layout depth closing entries rest)) := by
  simp [remainder]

theorem enclose_append (layout : Layout) (depth : Nat) (opening closing : Char)
    (first : List Char) (entries : List (List Char)) (rest : List Char) :
    enclose layout depth opening closing (first :: entries) ++ rest =
      opening :: (layout.gap (depth + 1) ++
        (first ++ remainder layout depth closing entries rest)) := by
  simp [enclose, remainder]

/-- A closing bracket of the two that there are. -/
def IsClosing (closing : Char) : Prop := closing = ']' ∨ closing = '}'

theorem IsClosing.isBlank_eq (h : IsClosing closing) : isBlank closing = false := by
  rcases h with rfl | rfl <;> rfl

theorem IsClosing.ne_comma (h : IsClosing closing) : ',' ≠ closing := by
  rcases h with rfl | rfl <;> decide

theorem IsClosing.endsNumber_remainder (h : IsClosing closing) (layout : Layout) (depth : Nat)
    (entries : List (List Char)) (rest : List Char) :
    EndsNumber (remainder layout depth closing entries rest) := by
  cases entries with
  | nil =>
    refine endsNumber_gap (endsNumber_cons ?_ rest)
    exact h.elim (fun h => .inr (.inl h)) fun h => .inr (.inr (.inl h))
  | cons first entries =>
    rw [remainder_cons]
    exact endsNumber_cons (.inl rfl) _

theorem entries?_written (hclosing : IsClosing closing) (layout : Layout) (depth : Nat)
    {written : List Char} {value : α} (hfirst : Reads entry closing written value)
    {texts : List (List Char)} {values : List α}
    (h : List.Forall₂ (Reads entry closing) texts values)
    {blanks : List Char} (hblanks : ∀ c ∈ blanks, isBlank c = true) (rest : List Char)
    {count : Nat} (hcount : texts.length < count) :
    entries? entry closing count
        (blanks ++ (written ++ remainder layout depth closing texts rest)) =
      some (value :: values, rest) := by
  induction h generalizing written value blanks count with
  | nil =>
    obtain ⟨count, rfl⟩ : ∃ k, count = k + 1 := ⟨count - 1, by omega⟩
    have hends := hclosing.endsNumber_remainder layout depth [] rest
    have hskip : skipBlanks (remainder layout depth closing [] rest) = closing :: rest := by
      show skipBlanks (layout.gap depth ++ closing :: rest) = _
      rw [Json.skipBlanks_append fun _ => isBlank_of_mem_gap, skipBlanks_cons hclosing.isBlank_eq]
    rw [entries?, Json.skipBlanks_append hblanks, hfirst.skipBlanks_append,
      hfirst.entry_append _ hends]
    simp [hskip]
  | @cons text next texts values hnext h ih =>
    obtain ⟨count, rfl⟩ : ∃ k, count = k + 1 := ⟨count - 1, by omega⟩
    have hends := hclosing.endsNumber_remainder layout depth (text :: texts) rest
    have hgap : ∀ c ∈ layout.gap (depth + 1), isBlank c = true := fun _ => isBlank_of_mem_gap
    have hmore := ih hnext hgap (Nat.lt_of_succ_lt_succ hcount)
    have hcomma : ∀ cs, skipBlanks (',' :: cs) = ',' :: cs := skipBlanks_cons rfl
    rw [entries?, Json.skipBlanks_append hblanks, hfirst.skipBlanks_append,
      hfirst.entry_append _ hends]
    simp [remainder_cons, hcomma, hclosing.ne_comma, hmore]

theorem length_le_remainder (layout : Layout) (depth : Nat) (closing : Char)
    (entries : List (List Char)) (rest : List Char) :
    entries.length ≤ (remainder layout depth closing entries rest).length := by
  induction entries with
  | nil => exact Nat.zero_le _
  | cons first entries ih =>
    simp only [remainder_cons, List.length_cons, List.length_append]
    omega

/-- A container is read entry by entry. -/
theorem exists_container?_enclose (hclosing : IsClosing closing) (layout : Layout) (depth : Nat)
    (opening : Char) {texts : List (List Char)} {values : List α}
    (h : List.Forall₂ (Reads entry closing) texts values) (rest : List Char) :
    ∃ inside, enclose layout depth opening closing texts ++ rest = opening :: inside ∧
      container? entry closing inside = some (values, rest) := by
  cases h with
  | nil =>
    refine ⟨closing :: rest, rfl, ?_⟩
    simp [container?, skipBlanks_cons hclosing.isBlank_eq]
  | @cons written value texts values hfirst h =>
    refine ⟨_, enclose_append .., ?_⟩
    have hcount : texts.length < (written ++ remainder layout depth closing texts rest).length := by
      have hlength := length_le_remainder layout depth closing texts rest
      obtain ⟨c, cs, rfl, -⟩ := hfirst.begins
      simp only [List.length_append, List.length_cons]
      omega
    have hnil : ∀ c ∈ ([] : List Char), isBlank c = true := fun _ hc => absurd hc List.not_mem_nil
    have hread := entries?_written hclosing layout depth hfirst h hnil rest hcount
    obtain ⟨c, cs, rfl, hblank, hne⟩ := hfirst.begins
    rw [container?, Json.skipBlanks_append fun _ => isBlank_of_mem_gap, List.cons_append,
      skipBlanks_cons hblank]
    simp only [if_neg hne]
    exact hread

end

/-! ### Members -/

/-- A member is read if its value is read under its key. -/
theorem Reads.member {value : String → List Char → Option (Json × List Char)} {key : String}
    {written : List Char} {j : Json} (h : Reads (value key) '}' written j) (layout : Layout) :
    Reads (member? .exact value) '}' (quote key ++ layout.colon ++ written) (key, j) where
  begins := ⟨'"', _, rfl, rfl, by decide⟩
  entry_append rest hrest := by
    have hcolon : ∀ cs, skipBlanks (':' :: cs) = ':' :: cs := skipBlanks_cons rfl
    have hblank : ∀ cs, skipBlanks (' ' :: cs) = skipBlanks cs := fun _ => rfl
    have hvalue := h.entry_append rest hrest
    have hskip := h.skipBlanks_append rest
    have hquote : ∀ cs, quote key ++ cs = '"' :: (key.toList.flatMap escape ++ '"' :: cs) := by
      simp [quote]
    rw [List.append_assoc, List.append_assoc, hquote]
    cases layout <;> simp [member?, text?_quoted, Layout.colon, hcolon, hblank, hskip, hvalue]

/-! ### Values -/

theorem value?_of_scalar {mode : Mode} {n : Nat} {c : Char} {cs : List Char} (harr : c ≠ '[')
    (hobj : c ≠ '{') : value? mode n (c :: cs) = scalar? mode (c :: cs) := by
  unfold value?
  split <;> simp_all

/-- What begins like a number is read as one. -/
theorem scalar?_of_number {mode : Mode} {c : Char} {cs : List Char}
    (h : c = '-' ∨ c.isDigit = true) : scalar? mode (c :: cs) = number? mode (c :: cs) := by
  unfold scalar?
  split
  all_goals first | rfl | (rename_i heq; cases heq; rcases h with h | h <;> cases h)

theorem not_blank_of_number {c : Char} (h : c = '-' ∨ c.isDigit = true) :
    isBlank c = false ∧ c ≠ ']' ∧ c ≠ '}' ∧ c ≠ '[' ∧ c ≠ '{' := by
  rcases h with rfl | h
  · decide
  · have hne : ∀ b : Char, b.isDigit = false → c ≠ b := by
      rintro b hb rfl
      rw [h] at hb
      cases hb
    refine ⟨?_, hne _ rfl, hne _ rfl, hne _ rfl, hne _ rfl⟩
    simp [isBlank, hne ' ' rfl, hne '\t' rfl, hne '\n' rfl, hne '\r' rfl]

theorem exists_enclose (layout : Layout) (depth : Nat) (opening closing : Char)
    (entries : List (List Char)) :
    ∃ inside, enclose layout depth opening closing entries = opening :: inside := by
  cases entries with
  | nil => exact ⟨_, rfl⟩
  | cons first rest => exact ⟨_, rfl⟩

/-- The text of a value begins with something that is not blank, and it does not begin by closing
what it stands in. -/
theorem exists_write (layout : Layout) (d : Nat) {j : Json} (hj : every isIntegral j = true) :
    ∃ c cs, write layout d j = c :: cs ∧ isBlank c = false ∧ c ≠ ']' ∧ c ≠ '}' := by
  cases j with
  | null => exact ⟨_, _, rfl, by decide⟩
  | bool b => cases b <;> exact ⟨_, _, rfl, by decide⟩
  | int n =>
    obtain ⟨c, cs, heq, hc⟩ := exists_toString_int n
    have hblank := not_blank_of_number hc
    exact ⟨c, cs, heq, hblank.1, hblank.2.1, hblank.2.2.1⟩
  | decimal text => cases hj
  | str text => exact ⟨_, _, rfl, by decide⟩
  | arr items =>
    obtain ⟨inside, heq⟩ := exists_enclose layout d '[' ']' (writeItems layout (d + 1) items)
    exact ⟨_, inside, heq, by decide⟩
  | obj members =>
    obtain ⟨inside, heq⟩ := exists_enclose layout d '{' '}' (writeMembers layout (d + 1) members)
    exact ⟨_, inside, heq, by decide⟩

theorem Reads.of_write {layout : Layout} {n d : Nat} {j : Json} {closing : Char}
    (hclosing : IsClosing closing) (hj : every isIntegral j = true)
    (h : ∀ rest, EndsNumber rest → value? .exact n (write layout d j ++ rest) = some (j, rest)) :
    Reads (value? .exact n) closing (write layout d j) j where
  begins := by
    obtain ⟨c, cs, heq, hblank, harr, hobj⟩ := exists_write layout d hj
    refine ⟨c, cs, heq, hblank, ?_⟩
    rcases hclosing with rfl | rfl
    · exact harr
    · exact hobj
  entry_append := h

theorem value?_write_int {i : Int} (hi : every isIntegral (int i) = true) (n : Nat)
    {rest : List Char} (hrest : EndsNumber rest) :
    value? .exact n ((toString i).toList ++ rest) = some (int i, rest) := by
  have hrange : i.natAbs < Numeral.significandLimit := by
    have hlimit : Numeral.significandLimit = 18446744073709551616 := by decide
    simp only [every, isIntegral, Bool.and_eq_true, decide_eq_true_eq] at hi
    omega
  obtain ⟨c, cs, heq, hc⟩ := exists_toString_int i
  have hnumber := number?_toString_int hrange hrest
  obtain ⟨-, -, -, harr, hobj⟩ := not_blank_of_number hc
  rw [heq, List.cons_append] at hnumber ⊢
  rw [value?_of_scalar harr hobj, scalar?_of_number hc, hnumber]

/-- The text of a value is read as the value, with what follows it. -/
theorem value?_write (layout : Layout) : ∀ (n : Nat) (j : Json), depth j ≤ n →
    every isIntegral j = true → ∀ (d : Nat) (rest : List Char), EndsNumber rest →
    value? .exact n (write layout d j ++ rest) = some (j, rest)
  | _, null, _, _, _, _, _ => value?_of_scalar (by decide) (by decide)
  | _, bool true, _, _, _, _, _ => value?_of_scalar (by decide) (by decide)
  | _, bool false, _, _, _, _, _ => value?_of_scalar (by decide) (by decide)
  | n, int _, _, hi, _, _, hrest => value?_write_int hi n hrest
  | _, str text, _, _, _, rest, _ => by
    have hquote : quote text ++ rest = '"' :: (text.toList.flatMap escape ++ '"' :: rest) := by
      simp [quote]
    rw [write, hquote, value?_of_scalar (by decide) (by decide), scalar?, text?_quoted]
    rfl
  | n + 1, arr items, hdepth, hj, d, rest, _ => by
    rw [depth_arr_le_iff] at hdepth
    rw [every_arr] at hj
    have hitems : List.Forall₂ (Reads (value? .exact n) ']')
        (writeItems layout (d + 1) items) items := by
      rw [writeItems_eq, List.forall₂_map_left_iff, List.forall₂_same]
      exact fun j hmem => .of_write (.inl rfl) (hj.2 j hmem)
        fun rest hrest => value?_write layout n j (hdepth j hmem) (hj.2 j hmem) _ rest hrest
    obtain ⟨inside, heq, hread⟩ := exists_container?_enclose (.inl rfl) layout d '[' hitems rest
    rw [write, heq, value?, hread]
    rfl
  | n + 1, obj members, hdepth, hj, d, rest, _ => by
    rw [depth_obj_le_iff] at hdepth
    rw [every_obj] at hj
    have hmembers : List.Forall₂ (Reads (member? .exact fun _ => value? .exact n) '}')
        (writeMembers layout (d + 1) members) members := by
      rw [writeMembers_eq, List.forall₂_map_left_iff, List.forall₂_same]
      refine fun m hmem => Reads.member (.of_write (.inr rfl) (hj.2 m hmem) ?_) layout
      exact fun rest hrest => value?_write layout n m.2 (hdepth m hmem) (hj.2 m hmem) _ rest hrest
    obtain ⟨inside, heq, hread⟩ := exists_container?_enclose (.inr rfl) layout d '{' hmembers rest
    rw [write, heq, value?, hread]
    rfl

/-! ### Whole texts -/

theorem complete?_nil (j : Json) : complete? (some (j, [])) = some j := rfl

theorem endsNumber_nil : EndsNumber [] := by
  rintro _ ⟨⟩

/-- The value that a text stands for, to a reader that follows no nesting deeper than the bound. -/
def readWithin? (n : Nat) (text : String) : Option Json :=
  complete? (value? .exact n (skipBlanks text.toList))

theorem readWithin?_render (layout : Layout) {n : Nat} {j : Json} (hdepth : depth j ≤ n)
    (hj : every isIntegral j = true) : readWithin? n (j.render layout) = some j := by
  obtain ⟨c, cs, heq, hblank, -⟩ := exists_write layout 0 hj
  have hskip : skipBlanks (write layout 0 j) = write layout 0 j := by
    rw [heq]
    exact skipBlanks_cons hblank cs
  have hvalue := value?_write layout n j hdepth hj 0 [] endsNumber_nil
  rw [List.append_nil] at hvalue
  rw [readWithin?, render, String.toList_ofList, hskip, hvalue, complete?_nil]

/-- A value can be read from its text. -/
theorem read?_render (layout : Layout) {j : Json} (hj : every isIntegral j = true) :
    read? (j.render layout) = some j := by
  refine readWithin?_render layout ?_ hj
  rw [render, String.length_ofList]
  exact depth_le_length layout 0 j

/-- An object is read from its text whole if all its members are kept, and if it does not nest
deeper than typed data may. -/
theorem readKeeping?_render (layout : Layout) {keep : String → Bool}
    {members : List (String × Json)} (hkeep : ∀ m ∈ members, keep m.1 = true)
    (hdepth : depth (obj members) ≤ maxDepth) (hj : every isIntegral (obj members) = true) :
    readKeeping? keep ((obj members).render layout) = some (obj members) := by
  have hdepth' := depth_obj_le_iff (n := maxDepth - 1).mp hdepth
  rw [every_obj] at hj
  have hmembers : List.Forall₂ (Reads (member? .exact fun key => if keep key then
      value? .exact (maxDepth - 1) else value? .skim ((obj members).render layout).length) '}')
      (writeMembers layout 1 members) members := by
    rw [writeMembers_eq, List.forall₂_map_left_iff, List.forall₂_same]
    intro m hmem
    refine Reads.member ?_ layout
    rw [if_pos (hkeep m hmem)]
    refine .of_write (.inr rfl) (hj.2 m hmem) fun rest hrest => ?_
    exact value?_write layout _ m.2 (hdepth' m hmem) (hj.2 m hmem) _ rest hrest
  obtain ⟨inside, heq, hread⟩ := exists_container?_enclose (.inr rfl) layout 0 '{' hmembers []
  have htext : ((obj members).render layout).toList = '{' :: inside := by
    rw [render, String.toList_ofList, write, ← heq, List.append_nil]
  rw [readKeeping?, htext, skipBlanks_cons rfl]
  simp only [hread, Option.map_some, complete?_nil]

end Json
end BatchFlow
