import Sigil.Proofs.Token.Passed

/-!
# What a scan takes of a text

A scan goes through a text from one lexeme to the next: it drops blanks, and takes the longest
spelling where a lexeme starts (`Lexed`). Seen from the whole text, each token stands on a span of
it; the spans follow each other without overlap, and between them there are blanks only (`Covered`).
So a scan loses nothing and reads nothing twice (`scan_covers_the_text`).
-/

namespace Sigil.Token

open Text (isBlank)
open Lexeme (Longest)

/-! ## 1. From lexeme to lexeme -/

/-- The tokens of a text that starts at the place `pos`. -/
inductive Lexed : Nat → List Char → List Token → Prop where
  | finish (pos : Nat) : Lexed pos [] [⟨.finish, pos⟩]
  | blank {pos : Nat} {c : Char} {cs : List Char} {tokens : List Token} (blank : isBlank c = true)
    (rest : Lexed (pos + 1) cs tokens) : Lexed pos (c :: cs) tokens
  | token {pos : Nat} {word rest : List Char} {x : Lexeme} {tokens : List Token}
    (longest : Longest (word ++ rest) word x) (next : Lexed (pos + word.length) rest tokens) :
    Lexed pos (word ++ rest) (⟨x, pos⟩ :: tokens)

theorem lexed_of_passed {pos : Nat} {cs : List Char} {tokens : List Token}
    (h : Passed [] pos cs tokens) :
    Lexed pos cs (tokens ++ [⟨.finish, pos + cs.length⟩]) := by
  induction h with
  | nil => exact .finish _
  | @blank pos c cs tokens blank _ ih =>
    have hplace : pos + 1 + cs.length = pos + (c :: cs).length := by
      rw [List.length_cons]
      omega
    exact .blank blank (hplace ▸ ih)
  | @lexeme pos c word cs x tokens solid found _ ih =>
    rw [List.append_nil] at found
    obtain ⟨word', cs', hsplit, hlength, hlongest⟩ := Lexeme.longest_of_lexemeAt found
    obtain ⟨rfl, rfl⟩ := List.append_inj hsplit hlength.symm
    have hnext : pos + 1 + word.length = pos + (c :: word).length := by
      rw [List.length_cons]
      omega
    have hend : pos + 1 + word.length + cs.length = pos + (c :: (word ++ cs)).length := by
      rw [List.length_cons, List.length_append]
      omega
    rw [hend, hnext] at ih
    exact @Lexed.token pos (c :: word) cs x _ hlongest ih

theorem lexed_of_scanFrom {pos : Nat} {cs : List Char} {tokens : List Token}
    (h : scanFrom pos 0 cs = .ok tokens) : Lexed pos cs tokens := by
  obtain ⟨before, rfl, hpassed⟩ := exists_passed h
  exact lexed_of_passed hpassed

/-- The last token is the end of the input. -/
theorem Lexed.getLast? {pos : Nat} {cs : List Char} {tokens : List Token}
    (h : Lexed pos cs tokens) :
    tokens.getLast?.map Token.lexeme = some .finish := by
  induction h with
  | finish pos => rfl
  | blank _ _ ih => exact ih
  | @token pos word rest x tokens _ _ ih =>
    obtain ⟨last, hlast, hfinish⟩ := Option.map_eq_some_iff.mp ih
    rw [List.getLast?_cons, hlast]
    exact congrArg some hfinish

/-! ## 2. Spans -/

/-- A token and the characters that it takes. -/
structure Span where
  token : Token
  word : List Char

/-- The place behind a span. -/
def Span.stop (span : Span) : Nat := span.token.pos + span.word.length

/-- From a place on, the spans cover the text: each one is the longest spelling at its place, they
    follow each other, and what is in none of them is blank. -/
structure Covered (text : List Char) (start : Nat) (spans : List Span) : Prop where
  longest : ∀ span ∈ spans, Longest (text.drop span.token.pos) span.word span.token.lexeme
  from_start : ∀ span ∈ spans, start ≤ span.token.pos
  apart : spans.Pairwise fun before after =>
    before.token.pos < after.token.pos ∧ before.stop ≤ after.token.pos
  blank : ∀ i c, start ≤ i → text[i]? = some c →
    (∀ span ∈ spans, i < span.token.pos ∨ span.stop ≤ i) → isBlank c = true

theorem Span.pos_lt_stop {text : List Char} {span : Span}
    (h : Longest text span.word span.token.lexeme) : span.token.pos < span.stop := by
  have hpos : 0 < span.word.length := List.length_pos_iff.mpr h.spelling.kind.ne_nil
  unfold Span.stop
  omega

/-- A blank more in front. -/
theorem Covered.after_blank {text : List Char} {start : Nat} {spans : List Span} {c : Char}
    (h : Covered text (start + 1) spans) (hc : text[start]? = some c) (hblank : isBlank c = true) :
    Covered text start spans where
  longest := h.longest
  from_start span hspan := Nat.le_of_succ_le (h.from_start span hspan)
  apart := h.apart
  blank i d hi hd outside := by
    rcases Nat.eq_or_lt_of_le hi with rfl | hlt
    · rw [hc] at hd
      cases hd
      exact hblank
    · exact h.blank i d hlt hd outside

/-- A span more in front. -/
theorem Covered.cons {text : List Char} {span : Span} {spans : List Span}
    (hspan : Longest (text.drop span.token.pos) span.word span.token.lexeme)
    (h : Covered text span.stop spans) : Covered text span.token.pos (span :: spans) where
  longest := List.forall_mem_cons.mpr ⟨hspan, h.longest⟩
  from_start := List.forall_mem_cons.mpr ⟨Nat.le_refl _, fun other hother =>
    Nat.le_of_lt (Nat.lt_of_lt_of_le (Span.pos_lt_stop hspan) (h.from_start other hother))⟩
  apart := List.pairwise_cons.mpr ⟨fun other hother =>
    ⟨Nat.lt_of_lt_of_le (Span.pos_lt_stop hspan) (h.from_start other hother),
      h.from_start other hother⟩, h.apart⟩
  blank i c hi hc outside := by
    obtain ⟨hhere, hothers⟩ := List.forall_mem_cons.mp outside
    have hbehind : span.stop ≤ i := hhere.resolve_left (Nat.not_lt_of_le hi)
    exact h.blank i c hbehind hc hothers

/-- What is scanned from a place on covers the text from there. -/
theorem Lexed.covered {text : List Char} {pos : Nat} {cs : List Char} {tokens : List Token}
    (h : Lexed pos cs tokens) (hcs : text.drop pos = cs) :
    ∃ spans : List Span, tokens = spans.map Span.token ++ [⟨.finish, pos + cs.length⟩] ∧
      Covered text pos spans := by
  -- along the tokens: each span starts where the one before ends, or behind a blank
  induction h with
  | finish pos =>
    refine ⟨[], rfl, fun _ hs => absurd hs List.not_mem_nil, fun _ hs => absurd hs List.not_mem_nil,
      .nil, fun i c hi hc _ => ?_⟩
    have hend : text.length ≤ i := Nat.le_trans (List.drop_eq_nil_iff.mp hcs) hi
    rw [List.getElem?_eq_none hend] at hc
    cases hc
  | @blank pos c cs tokens hblank _ ih =>
    have hrest : text.drop (pos + 1) = cs := by
      rw [← List.drop_drop, hcs]
      rfl
    have hc : text[pos]? = some c := by
      rw [← List.head?_drop, hcs]
      rfl
    obtain ⟨spans, htokens, hspans⟩ := ih hrest
    refine ⟨spans, ?_, hspans.after_blank hc hblank⟩
    rw [htokens, List.length_cons, Nat.add_right_comm, Nat.add_assoc]
  | @token pos word rest x tokens hlongest _ ih =>
    have hrest : text.drop (pos + word.length) = rest := by
      rw [← List.drop_drop, hcs, List.drop_left]
    obtain ⟨spans, htokens, hspans⟩ := ih hrest
    rw [← hcs] at hlongest
    refine ⟨⟨⟨x, pos⟩, word⟩ :: spans, ?_,
      @Covered.cons text ⟨⟨x, pos⟩, word⟩ spans hlongest hspans⟩
    rw [htokens, List.length_append, Nat.add_assoc]
    rfl

/-- **A scan loses nothing and takes the longest lexemes**: all tokens but the last stand on
    spans of the text, each with the longest spelling at its place; the spans stand in order
    and apart, what is in none of them is blank; and the last token is the end of the input,
    at the end of the text. -/
theorem scan_covers_the_text {s : String} {tokens : List Token} (h : scan s = .ok tokens) :
    ∃ spans : List Span, tokens = spans.map Span.token ++ [⟨.finish, s.length⟩] ∧
      (∀ span ∈ spans, span.token.lexeme ≠ .finish) ∧ Covered s.toList 0 spans := by
  obtain ⟨spans, htokens, hspans⟩ : ∃ spans : List Span,
      tokens = spans.map Span.token ++ [⟨.finish, 0 + s.toList.length⟩] ∧
        Covered s.toList 0 spans :=
    (lexed_of_scanFrom h).covered rfl
  refine ⟨spans, ?_, fun span hspan => (hspans.longest span hspan).spelling.ne_finish, hspans⟩
  rw [htokens, Nat.zero_add, String.length_toList]

/-- Lexemes without blanks between them: each ends where it can go on no longer. -/
theorem scan_covers_adjacent_lexemes :
    let s := "!=-1.5->\"\\\"\" nulls"
    let tokens : List Token :=
      [⟨.symbol .unequal, 0⟩, ⟨.number (Binary64.ofBits 0xBFF8000000000000), 2⟩,
      ⟨.symbol .arrow, 6⟩, ⟨.string "\"", 8⟩, ⟨.name "nulls", 13⟩, ⟨.finish, 18⟩]
    scan s = .ok tokens ∧
      ∃ spans : List Span, tokens = spans.map Span.token ++ [⟨.finish, s.length⟩] ∧
        (∀ span ∈ spans, span.token.lexeme ≠ .finish) ∧ Covered s.toList 0 spans := by
  intro s tokens
  have hread : (scan s).toOption = some tokens := by decide +kernel
  have h : scan s = .ok tokens := by
    cases hscan : scan s with
    | error e =>
      rw [hscan] at hread
      cases hread
    | ok found =>
      rw [hscan] at hread
      rw [Option.some.inj hread]
  exact ⟨h, scan_covers_the_text h⟩
end Sigil.Token
