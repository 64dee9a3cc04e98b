import Mathlib.Data.List.Basic
import GridCss.Proofs.FaultCauses

/-!
# Faults that nothing mends

A reader that has found a fault goes no further, so that what follows in the source does not matter.
Other faults are found at the end of a source, and reported there. The only exception is a slash at
the very end, which is reported at the slash and could still become a comment.
-/

namespace GridCss

namespace Position

/-- One position comes before another in a text. -/
def Before (p q : Position) : Prop := p.line < q.line ∨ p.line = q.line ∧ p.column < q.column

theorem Before.trans {p q r : Position} (h : p.Before q) (h' : q.Before r) : p.Before r := by
  unfold Before at *
  omega

theorem Before.ne {p q : Position} (h : p.Before q) : p ≠ q := by
  rintro rfl
  unfold Before at h
  omega

theorem before_advance (p : Position) (c : Char) : p.Before (p.advance c) := by
  unfold advance
  split_ifs
  · exact .inl (Nat.lt_succ_self p.line)
  · exact .inr ⟨rfl, Nat.lt_succ_self p.column⟩

theorem before_advanceAll (p : Position) {cs : List Char} (h : cs ≠ []) :
    p.Before (p.advanceAll cs) := by
  induction cs generalizing p with
  | nil => exact absurd rfl h
  | cons c cs ih =>
    by_cases hcs : cs = []
    · subst hcs
      exact p.before_advance c
    · exact (p.before_advance c).trans (ih _ hcs)

/-- The end of a text is not where one of its characters is. -/
theorem advanceAll_ne (before : List Char) (c : Char) (after : List Char) (p : Position) :
    p.advanceAll before ≠ p.advanceAll (before ++ c :: after) := by
  rw [advanceAll_append]
  exact (before_advanceAll _ (List.cons_ne_nil c after)).ne

end Position

namespace Source

/-- Where the slash is that may become a comment, if the character just read is one. -/
def BlockMode.slash? : BlockMode → Option Position
  | .slash first => some first
  | _ => none

def StepsMode.slash? : StepsMode → Option Position
  | .block _ b => b.mode.slash?
  | _ => none

def Mode.slash? : Mode → Option Position
  | .slash first => some first
  | .pseudo _ _ block => block.mode.slash?
  | .keyframes _ steps => steps.mode.slash?
  | _ => none

theorem BlockReader.position_endFault (r : BlockReader) (p : Position) :
    (r.endFault p).position = r.mode.slash?.getD p := by
  obtain ⟨mode, declarations⟩ := r
  cases mode <;> rfl

theorem StepsReader.position_endFault (r : StepsReader) (p : Position) :
    (r.endFault p).position = r.mode.slash?.getD p := by
  obtain ⟨mode, steps⟩ := r
  cases mode with
  | block selector block => exact block.position_endFault p
  | idle | slash | comment | selector => rfl

namespace Reader

variable {r r' : Reader} {p : Position} {e : SourceError}

theorem position_of_finishIdle (h : r.finishIdle p = .error e) : e.position = p := by
  unfold finishIdle at h
  split_ifs at h
  cases h
  rfl

/-- What is wrong at the end of a source is reported at the end, or at a slash in front of it. -/
theorem position_of_finish (h : r.finish p = .error e) : e.position = r.mode.slash?.getD p := by
  cases hmode : r.mode with
  | idle =>
    simp only [finish, hmode] at h
    exact position_of_finishIdle h
  | comment comment =>
    simp only [finish, hmode] at h
    exact position_of_finishIdle h
  | declaration declaration =>
    simp only [finish, hmode] at h
    split at h
    · exact position_of_finishIdle h
    · cases h
      rfl
  | pseudo id selector block =>
    simp only [finish, hmode] at h
    cases h
    exact block.position_endFault p
  | keyframes name steps =>
    simp only [finish, hmode] at h
    cases h
    exact steps.position_endFault p
  | word name =>
    simp only [finish, hmode] at h
    split_ifs at h <;> cases h <;> rfl
  | keyframesName name =>
    simp only [finish, hmode] at h
    split_ifs at h <;> cases h <;> rfl
  | slash | selector | header | arguments | keyframesHeader =>
    simp only [finish, hmode] at h
    cases h
    rfl

end Reader

section

variable {read : List Char} {first : Position}

theorem BlockReader.Follows.behindSlash {r : BlockReader} (h : r.Follows read)
    (hslash : r.mode.slash? = some first) : BehindSlash read first := by
  obtain ⟨mode, declarations⟩ := r
  cases mode with
  | slash =>
    cases hslash
    exact h
  | idle | comment | declaration => cases hslash

theorem StepsReader.Follows.behindSlash {r : StepsReader} (h : r.Follows read)
    (hslash : r.mode.slash? = some first) : BehindSlash read first := by
  obtain ⟨mode, steps⟩ := r
  cases mode with
  | block selector block => exact (h selector block rfl).behindSlash hslash
  | idle | slash | comment | selector => cases hslash

/-- Behind a reader that waits for a comment there is a slash. -/
theorem Reader.Follows.behindSlash {r : Reader} (h : r.Follows read)
    (hslash : r.mode.slash? = some first) : BehindSlash read first := by
  obtain ⟨mode, items, enclosing, nextId⟩ := r
  cases mode with
  | slash =>
    cases hslash
    exact h
  | pseudo id selector block => exact BlockReader.Follows.behindSlash h hslash
  | keyframes name steps => exact StepsReader.Follows.behindSlash h hslash
  | idle | comment | declaration | selector | word | header | arguments | keyframesName
    | keyframesHeader => cases hslash

end

namespace Reader

theorem slash?_of_feed {r : Reader} {cs : List Char} (hlast : cs.getLast? ≠ some '/')
    (h : Reader.feed {} {} cs = .ok r) : r.mode.slash? = none := by
  cases hslash : r.mode.slash? with
  | none => rfl
  | some first =>
    obtain ⟨start, hcs, -⟩ := ((accounts_feed cs).of_ok h).behindSlash hslash
    rw [hcs, List.getLast?_concat] at hlast
    exact absurd rfl hlast

theorem feed_append_error {r : Reader} {p : Position} {cs : List Char} {e : SourceError}
    (h : r.feed p cs = .error e) (ds : List Char) : r.feed p (cs ++ ds) = .error e := by
  rw [feed_append, h]

end Reader

end Source

open Source

/-- A fault at a character of a source that does not end with a slash stays, whatever is written
behind the source. -/
theorem parse_error_append {source : String} {e : SourceError}
    (hlast : source.toList.getLast? ≠ some '/') (hparse : parse source = .error e)
    (hinside : ∃ before c after, source.toList = before ++ c :: after ∧
      e.position = Position.advanceAll {} before) (more : String) :
    parse (source ++ more) = .error e := by
  unfold parse Reader.read at hparse ⊢
  rw [String.toList_append]
  cases hfeed : Reader.feed {} {} source.toList with
  | error e' =>
    rw [hfeed] at hparse
    cases hparse
    rw [Reader.feed_append_error hfeed]
  | ok r =>
    -- The reader came to the end, so that the fault is there and at no character.
    rw [hfeed] at hparse
    obtain ⟨before, c, after, hsource, hposition⟩ := hinside
    have hend := Reader.position_of_finish hparse
    rw [Reader.slash?_of_feed hlast hfeed, hposition, hsource] at hend
    exact absurd hend (Position.advanceAll_ne before c after {})

/-- A colon in a value, behind a block with a comment and a call. -/
theorem parse_error_append_colon :
    let e : SourceError := ⟨.unexpectedColon, ⟨2, 4⟩⟩
    ":a\x7b/*;*/b:@c('\x7d');\x7d\nd:e:f".toList.getLast? ≠ some '/' ∧
    parse ":a\x7b/*;*/b:@c('\x7d');\x7d\nd:e:f" = .error e ∧
    (∃ before c after, ":a\x7b/*;*/b:@c('\x7d');\x7d\nd:e:f".toList = before ++ c :: after ∧
      e.position = Position.advanceAll {} before) ∧
    parse (":a\x7b/*;*/b:@c('\x7d');\x7d\nd:e:f" ++ "/* */;@g\x7b\x7d") = .error e := by
  intro e
  have hlast : ":a\x7b/*;*/b:@c('\x7d');\x7d\nd:e:f".toList.getLast? ≠ some '/' := by decide
  have hparse : parse ":a\x7b/*;*/b:@c('\x7d');\x7d\nd:e:f" = .error e := rfl
  have hinside : ∃ before c after,
      ":a\x7b/*;*/b:@c('\x7d');\x7d\nd:e:f".toList = before ++ c :: after ∧
        e.position = Position.advanceAll {} before :=
    ⟨":a\x7b/*;*/b:@c('\x7d');\x7d\nd:e".toList, ':', ['f'], rfl, rfl⟩
  exact ⟨hlast, hparse, hinside, parse_error_append hlast hparse hinside _⟩

/-- Behind a slash that is no comment yet, the fault may go away. -/
example : parse "a:b;/" = .error ⟨.badPropertyName, ⟨1, 5⟩⟩ ∧
    parse ("a:b;/" ++ "* */") = .ok [.declaration ⟨"a", [.text "b"]⟩, .comment " "] := ⟨rfl, rfl⟩

end GridCss
