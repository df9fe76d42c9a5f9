import Gauge.Proofs.Syntax.Cut
import Gauge.Proofs.Text.Run

/-!
# Proofs — what stands between tokens

White space and comments.  A line comment ends where its line does, a block comment at the first
`*/` behind its opening; so what a text goes on with decides whether some characters are a gap in
front of it (`Gap`).  Gaps stand one behind the other (`Gap.append`), and where a block comment ends
is what the reader counts (`commentEnd?_eq_some_iff`).
-/

namespace Gauge

/-- White space and comments, in front of `rest`. -/
inductive Gap (rest : List Char) : List Char → Prop where
  | nil : Gap rest []
  | blank {c : Char} {gap : List Char} (hc : isBlank c = true) (h : Gap rest gap) :
      Gap rest (c :: gap)
  /-- A line comment runs up to the end of its line or of the text. -/
  | line {body gap : List Char} (hb : '\n' ∉ body) (hl : (gap ++ rest).head?.all (· = '\n') = true)
      (h : Gap rest gap) : Gap rest ('/' :: '/' :: (body ++ gap))
  /-- A block comment runs up to the first `*/`. -/
  | block {body gap : List Char} (hb : ¬ ['*', '/'] <:+: body) (h : Gap rest gap) :
      Gap rest ('/' :: '*' :: (body ++ '*' :: '/' :: gap))

namespace Gap

theorem append {rest a b : List Char} (ha : Gap (b ++ rest) a) (hb : Gap rest b) :
    Gap rest (a ++ b) := by
  induction ha with
  | nil => exact hb
  | blank hc _ ih => exact .blank hc ih
  | line hn hl _ ih =>
    rw [List.cons_append, List.cons_append, List.append_assoc]
    exact .line hn (by rwa [List.append_assoc]) ih
  | block hn _ ih =>
    rw [List.cons_append, List.cons_append, List.append_assoc]
    exact .block hn ih

theorem of_blanks {rest gap : List Char} (h : ∀ c ∈ gap, isBlank c = true) : Gap rest gap := by
  induction gap with
  | nil => exact .nil
  | cons c gap ih =>
    exact .blank (h c (.head _)) (ih fun d hd => h d (.tail _ hd))

end Gap

/-! ### The end of a block comment -/

theorem not_infix_of_cons {c : Char} {l body : List Char} (h : ¬ l <:+: c :: body) :
    ¬ l <:+: body :=
  fun hb => h (hb.trans (List.suffix_cons c body).isInfix)

/-- A block comment ends at the first `*/`. -/
theorem commentEnd?_eq_some_iff {cs : List Char} {n : Nat} :
    commentEnd? cs = some n ↔
      ∃ body rest, cs = body ++ '*' :: '/' :: rest ∧ ¬ ['*', '/'] <:+: body ∧ body.length = n := by
  fun_induction commentEnd? cs generalizing n with
  | case1 => simp
  | case2 cs =>
    constructor
    · rintro ⟨⟩
      exact ⟨[], cs, rfl, by simp, rfl⟩
    · rintro ⟨body, rest, h, hb, rfl⟩
      match body, h with
      | [], _ => rfl
      | [c], h => simp at h
      | c :: d :: body, h =>
        cases h
        exact absurd ⟨[], body, rfl⟩ hb
  | case3 c cs hc ih =>
    constructor
    · intro h
      obtain ⟨m, hm, rfl⟩ := Option.map_eq_some_iff.mp h
      obtain ⟨body, rest, rfl, hb, rfl⟩ := ih.mp hm
      refine ⟨c :: body, rest, rfl, ?_, rfl⟩
      -- an occurrence in front would have been taken for the end
      rintro hi
      rcases List.infix_cons_iff.mp hi with hp | hi
      · obtain ⟨t, ht⟩ := hp
        cases ht
        exact hc _ rfl rfl
      · exact hb hi
    · rintro ⟨body, rest, h, hb, rfl⟩
      cases body with
      | nil =>
        cases h
        exact absurd rfl (hc rest rfl)
      | cons d body =>
        cases h
        exact Option.map_eq_some_iff.mpr
          ⟨body.length, ih.mpr ⟨body, rest, rfl, not_infix_of_cons hb, rfl⟩, rfl⟩

end Gauge
