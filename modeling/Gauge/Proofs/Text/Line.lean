import Gauge.Proofs.Text.Run
import Gauge.Text.Line

/-!
# Proofs — the line of an offset

`lineAt` is compared with what can be said of the bytes of the text alone: how many newlines stand
before the offset, where the last of them ends and where the next one is.  No other character has
the byte of a newline in it, so lines are the same for bytes and for characters.

A text is parted at a line (`Parted`) into the lines before it, the line without its newline, and
what comes after.  Every offset has such a line (`exists_parted`), and the search finds it
(`Parted.lineFrom_eq`).  Both follow the lines of the text (`lines_induction`).

Main statement: `lineAt_exact`.
-/

namespace Gauge

/-! ### Bytes -/

/-- The bytes of a text in UTF-8. -/
def bytes (cs : List Char) : List UInt8 := cs.flatMap String.utf8EncodeChar

/-- The byte of a newline. -/
def newline : UInt8 := 10

theorem bytes_append (as bs : List Char) : bytes (as ++ bs) = bytes as ++ bytes bs :=
  List.flatMap_append

theorem bytes_newline (cs : List Char) : bytes ('\n' :: cs) = newline :: bytes cs := rfl

theorem length_bytes (cs : List Char) : (bytes cs).length = width cs := by
  induction cs with
  | nil => rfl
  | cons c cs ih =>
    rw [width_cons, ← ih, ← String.length_utf8EncodeChar c]
    exact List.length_append

/-- No other character has the byte of a newline in it. -/
theorem newline_not_mem {c : Char} (h : c ≠ '\n') : newline ∉ String.utf8EncodeChar c := by
  have code : c.val.toNat ≠ 10 := fun he => h (Char.ext (UInt32.toNat_inj.mp he))
  have byte : ∀ k, newline = UInt8.ofNat k ↔ 10 = k % 256 := fun k => by
    rw [← UInt8.toNat_inj, UInt8.toNat_ofNat']
    rfl
  intro hm
  simp only [String.utf8EncodeChar] at hm
  split_ifs at hm <;> simp only [List.mem_cons, List.not_mem_nil, or_false, byte] at hm <;> omega

theorem count_bytes (cs : List Char) : (bytes cs).count newline = cs.count '\n' := by
  induction cs with
  | nil => rfl
  | cons c cs ih =>
    by_cases h : c = '\n'
    · rw [h, bytes_newline, List.count_cons_self, List.count_cons_self, ih]
    · rw [List.count_cons_of_ne h, ← ih, ← Nat.zero_add (List.count newline (bytes cs)),
        ← List.count_eq_zero.mpr (newline_not_mem h)]
      exact List.count_append

/-! ### Lines -/

theorem width_newline (cs : List Char) : width ('\n' :: cs) = width cs + 1 := by
  rw [width_cons, Nat.add_comm]
  rfl

theorem lines_newline {body : List Char} (rest : List Char) (h : '\n' ∉ body) :
    lines (body ++ '\n' :: rest) = (body ++ ['\n']) :: lines rest := by
  induction body with
  | nil => simp [lines]
  | cons c body ih =>
    obtain ⟨hc, hb⟩ := not_or.mp (List.mem_cons.not.mp h)
    simp [lines, Ne.symm hc, ih hb]

theorem lines_last {cs : List Char} (hne : cs ≠ []) (h : '\n' ∉ cs) : lines cs = [cs] := by
  induction cs with
  | nil => exact absurd rfl hne
  | cons c cs ih =>
    obtain ⟨hc, hb⟩ := not_or.mp (List.mem_cons.not.mp h)
    cases cs with
    | nil => simp [lines, Ne.symm hc]
    | cons d cs => rw [lines, if_neg (Ne.symm hc), ih (by simp) hb]

/-- A text is a last line without newline, or a line and the text after it. -/
theorem lines_induction {P : List Char → Prop} (last : ∀ cs, '\n' ∉ cs → P cs)
    (line : ∀ body rest, '\n' ∉ body → P rest → P (body ++ '\n' :: rest)) (cs : List Char) :
    P cs := by
  induction hn : cs.length using Nat.strong_induction_on generalizing cs with
  | _ n ih =>
    by_cases h : '\n' ∈ cs
    · obtain ⟨body, rest, rfl, hb⟩ := List.eq_append_cons_of_mem h
      refine line body rest hb (ih rest.length ?_ rest rfl)
      rw [← hn, List.length_append, List.length_cons]
      omega
    · exact last cs h

theorem Line.holds_iff {start offset : Nat} {l : List Char} : Line.holds start offset l = true ↔
    offset < start + width l ∨ offset = start + width l ∧ l.getLast? ≠ some '\n' := by
  simp [Line.holds]

/-- A text parted at a line: `earlier` are whole lines, `body` is the line without the newline that
ends it, and `rest` starts with that newline, if there is one. -/
structure Parted {α : Type} (nl : α) (text earlier body rest : List α) : Prop where
  eq : text = earlier ++ (body ++ rest)
  whole : earlier = [] ∨ earlier.getLast? = some nl
  body : nl ∉ body
  rest : rest = [] ∨ ∃ tail, rest = nl :: tail

namespace Parted

variable {cs earlier body rest : List Char} {k : Nat}

/-- The search stops at the first line, if the offset lies in it. -/
theorem lineFrom_head (h : Parted '\n' cs [] body rest) (hk : k ≤ width body) (number start : Nat) :
    lineFrom (start + k) number start (lines cs) = ⟨number, body ++ rest.take 1, k⟩ := by
  obtain ⟨rfl, -, hb, rfl | ⟨tail, rfl⟩⟩ := h
  · by_cases hne : body = []
    · subst hne
      obtain rfl : k = 0 := Nat.le_zero.mp hk
      rfl
    · have holds : Line.holds start (start + k) body = true :=
        Line.holds_iff.mpr ((Nat.lt_or_eq_of_le hk).imp (by omega) fun h =>
          ⟨by omega, fun last => hb (List.mem_of_getLast? last)⟩)
      simp [lines_last hne hb, lineFrom, holds]
  · have holds : Line.holds start (start + k) (body ++ ['\n']) = true :=
      Line.holds_iff.mpr (.inl (by rw [width_append, width_newline]; omega))
    simp [lines_newline tail hb, lineFrom, holds]

/-- The search finds the line, for every offset in it.  By induction on the lines before. -/
theorem lineFrom_eq (h : Parted '\n' cs earlier body rest) (hk : k ≤ width body)
    (number start : Nat) :
    lineFrom (start + (width earlier + k)) number start (lines cs) =
      ⟨number + earlier.count '\n', body ++ rest.take 1, k⟩ := by
  induction earlier using lines_induction generalizing cs number start with
  | last earlier hn =>
    obtain rfl := h.whole.resolve_right fun last => hn (List.mem_of_getLast? last)
    simpa using h.lineFrom_head hk number start
  | line first later hf ih =>
    obtain ⟨rfl, hw, hb, hr⟩ := h
    have whole : later = [] ∨ later.getLast? = some '\n' := by
      cases later with
      | nil => exact .inl rfl
      | cons _ _ => exact .inr (by simpa using hw)
    have offset : start + (width (first ++ '\n' :: later) + k) =
        start + width (first ++ ['\n']) + (width later + k) := by
      simp only [width_append, width_newline, width_nil]
      omega
    have passed : ¬ Line.holds start (start + (width (first ++ '\n' :: later) + k))
        (first ++ ['\n']) = true := by
      rw [Line.holds_iff, offset]
      simp
    rw [List.append_assoc, List.cons_append, lines_newline _ hf, lineFrom, if_neg passed, offset,
      ih ⟨rfl, whole, hb, hr⟩, List.count_append, List.count_eq_zero.mpr hf, List.count_cons_self,
      Nat.zero_add, Nat.add_right_comm, Nat.add_assoc]

theorem lineAt_eq (h : Parted '\n' cs earlier body rest) (hk : k ≤ width body) :
    lineAt cs (width earlier + k) =
      some ⟨1 + earlier.count '\n', body ++ rest.take 1, k⟩ := by
  have found := h.lineFrom_eq hk 1 0
  have inside : ¬ width cs < width earlier + k := by
    rw [h.eq, width_append, width_append]
    omega
  rw [Nat.zero_add] at found
  rw [lineAt, if_neg inside, found]

end Parted

/-- The line of an offset between two characters. -/
theorem Parted.of_lead {earlier lead : List Char} (later : List Char)
    (hw : earlier = [] ∨ earlier.getLast? = some '\n') (hn : '\n' ∉ lead) :
    Parted '\n' (earlier ++ (lead ++ later)) earlier (lead ++ later.takeWhile (· ≠ '\n'))
      (later.dropWhile (· ≠ '\n')) where
  eq := by rw [List.append_assoc lead, List.takeWhile_append_dropWhile]
  whole := hw
  body hm := (List.mem_append.mp hm).elim hn fun hm => by simpa using List.mem_takeWhile_imp hm
  rest := dropWhile_ne '\n' later

/-- Every offset of a text lies in a line. -/
theorem exists_parted {cs : List Char} {p : Nat} (h : p ≤ width cs) :
    ∃ earlier body rest k, Parted '\n' cs earlier body rest ∧ p = width earlier + k ∧
      k ≤ width body := by
  induction cs using lines_induction generalizing p with
  | last cs hn => exact ⟨[], cs, [], p, ⟨by simp, .inl rfl, hn, .inl rfl⟩, by simp, h⟩
  | line first later hf ih =>
    by_cases hp : p ≤ width first
    · exact ⟨[], first, '\n' :: later, p, ⟨rfl, .inl rfl, hf, .inr ⟨later, rfl⟩⟩, by simp, hp⟩
    · rw [width_append, width_newline] at h
      obtain ⟨earlier, body, rest, k, ⟨rfl, hw, hb, hr⟩, hq, hk⟩ :=
        ih (p := p - (width first + 1)) (by omega)
      refine ⟨first ++ '\n' :: earlier, body, rest, k, ⟨by simp, .inr ?_, hb, hr⟩, ?_, hk⟩
      · rcases hw with rfl | hw <;> simp [List.getLast?_cons, *]
      · rw [width_append, width_newline]
        omega

/-! ### Lines of bytes -/

/-- The offset just after the last newline before `p`, or zero. -/
def lineStart (bs : List UInt8) (p : Nat) : Nat :=
  ((bs.take p).reverse.dropWhile (· ≠ newline)).length

/-- The bytes up to the first newline, which is among them, or all. -/
def firstLine (bs : List UInt8) : List UInt8 :=
  bs.takeWhile (· ≠ newline) ++ (bs.dropWhile (· ≠ newline)).take 1

namespace Parted

/-- Lines are parted in bytes as in characters. -/
theorem toBytes {cs earlier body rest : List Char} (h : Parted '\n' cs earlier body rest) :
    Parted newline (bytes cs) (bytes earlier) (bytes body) (bytes rest) where
  eq := by rw [h.eq, bytes_append, bytes_append]
  whole := h.whole.imp (congrArg bytes) fun last => by
    obtain ⟨init, rfl⟩ := List.getLast?_eq_some_iff.mp last
    rw [bytes_append]
    exact List.getLast?_concat
  body := List.count_eq_zero.mp ((count_bytes body).trans (List.count_eq_zero.mpr h.body))
  rest := h.rest.imp (congrArg bytes) fun ⟨tail, ht⟩ => ⟨bytes tail, congrArg bytes ht⟩

variable {bs earlier body rest : List UInt8} {k : Nat}

theorem take_eq (h : Parted newline bs earlier body rest) (hk : k ≤ body.length) :
    bs.take (earlier.length + k) = earlier ++ body.take k := by
  rw [h.eq, List.take_length_add_append, List.take_append_of_le_length hk]

/-- A line starts behind the lines before it. -/
theorem lineStart_eq (h : Parted newline bs earlier body rest) (hk : k ≤ body.length) :
    lineStart bs (earlier.length + k) = earlier.length := by
  have passed : ∀ b ∈ (body.take k).reverse, decide (b ≠ newline) = true := fun b hb => by
    simpa using ne_of_mem_of_not_mem (List.mem_of_mem_take (List.mem_reverse.mp hb)) h.body
  rw [lineStart, h.take_eq hk, List.reverse_append, List.dropWhile_append_of_pos passed]
  rcases h.whole with rfl | last
  · rfl
  · obtain ⟨init, rfl⟩ := List.getLast?_eq_some_iff.mp last
    simp

theorem count_eq (h : Parted newline bs earlier body rest) (hk : k ≤ body.length) :
    (bs.take (earlier.length + k)).count newline = earlier.count newline := by
  rw [h.take_eq hk, List.count_append,
    List.count_eq_zero.mpr fun hm => h.body (List.mem_of_mem_take hm), Nat.add_zero]

theorem firstLine_eq (h : Parted newline bs earlier body rest) :
    firstLine (bs.drop earlier.length) = body ++ rest.take 1 := by
  have passed : ∀ b ∈ body, decide (b ≠ newline) = true := fun b hb => by
    simpa using ne_of_mem_of_not_mem hb h.body
  rw [h.eq, List.drop_left, firstLine, List.takeWhile_append_of_pos passed,
    List.dropWhile_append_of_pos passed]
  rcases h.rest with rfl | ⟨tail, rfl⟩ <;> simp

end Parted

/-- **The line of an offset, told by the bytes of the text.**  There is one exactly if the offset is
not past the end.  Its number is one more than the newlines before the offset; its column is counted
from the end of the last of them, and its text runs from there through the next one. -/
theorem lineAt_exact (source : List Char) (p : Nat) :
    (lineAt source p).map (fun l => (l.number, bytes l.text, l.column)) =
      if (bytes source).length < p then none
      else some (1 + ((bytes source).take p).count newline,
        firstLine ((bytes source).drop (lineStart (bytes source) p)),
        p - lineStart (bytes source) p) := by
  rw [length_bytes]
  split
  · next hp => rw [lineAt, if_pos hp, Option.map_none]
  · next hp =>
    obtain ⟨earlier, body, rest, k, parted, rfl, hk⟩ := exists_parted (Nat.le_of_not_lt hp)
    have text : bytes (body ++ rest.take 1) = bytes body ++ (bytes rest).take 1 := by
      rw [bytes_append]
      rcases parted.rest with rfl | ⟨tail, rfl⟩ <;> rfl
    rw [parted.lineAt_eq hk, Option.map_some, text, ← count_bytes]
    rw [← length_bytes] at hk ⊢
    rw [parted.toBytes.lineStart_eq hk, parted.toBytes.count_eq hk, parted.toBytes.firstLine_eq,
      Nat.add_sub_cancel_left]

end Gauge
