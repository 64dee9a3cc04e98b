import GridCss.Proofs.Concatenation
import GridCss.Proofs.TidyValues

/-!
# What faults point at

A fault is reported with the position of a place in the source, and what stands at that place, or in
front of it, is what the fault says. Most faults are found at the character that is read. The others
lie behind: a slash that starts no comment, the blanks inside a property name, the word `@keyframes`
without a name. A reader that may still report one of these knows where it has read it.
-/

namespace GridCss

/-- What a fault says of the place where it is reported, given the text in front of it and what
follows. -/
def Fault.PointsAt (before after : List Char) : Fault → Prop
  | .unexpectedEnd => after = []
  | .unexpectedColon => after.head? = some ':'
  | .expectedBlock => ∃ c ∈ after.head?, Text.isBlank c = false ∧ c ≠ '{'
  | .missingKeyframesName =>
    (after = [] ∨ after.head? = some '{') ∧
      ∃ start blanks, before = start ++ "@keyframes".toList ++ blanks ∧
        ∀ c ∈ blanks, Text.isBlank c = true
  | .badPropertyName =>
    (∃ c ∈ after.head?, Text.isBlank c = false ∧ Text.isNameChar c = false) ∨
      -- The first blank behind a word that is followed by another word.
      ∃ start last blanks next rest, before = start ++ [last] ∧ Text.isNameChar last = true ∧
        after = blanks ++ next :: rest ∧ blanks ≠ [] ∧ (∀ c ∈ blanks, Text.isBlank c = true) ∧
        Text.isNameChar next = true

/-- An error is explained by a text if its position is that of a place in the text that its fault
points at. -/
def SourceError.Explained (text : List Char) (e : SourceError) : Prop :=
  ∃ before after, text = before ++ after ∧ e.position = Position.advanceAll {} before ∧
    e.fault.PointsAt before after

namespace Source

variable {σ : Type}

/-- What is true of the result of reading a text, where an error must be explained by the text. -/
def Accounts (text : List Char) (P : σ → Prop) : Except SourceError σ → Prop
  | .ok s => P s
  | .error e => e.Explained text

section

variable {text : List Char} {P : σ → Prop} {x : Except SourceError σ}

theorem Accounts.of_ok (h : Accounts text P x) {s : σ} (hx : x = .ok s) : P s := by
  subst hx
  exact h

theorem Accounts.of_error (h : Accounts text P x) {e : SourceError} (hx : x = .error e) :
    e.Explained text := by
  subst hx
  exact h

end

theorem explained_at {fault : Fault} {read after : List Char} (h : fault.PointsAt read after) :
    SourceError.Explained (read ++ after) ⟨fault, Position.advanceAll {} read⟩ :=
  ⟨read, after, rfl, rfl, h⟩

/-- A character that neither is blank nor belongs to a name is at fault itself. -/
theorem explained_badPropertyName {read : List Char} {c : Char} (hblank : Text.isBlank c = false)
    (hname : Text.isNameChar c = false) (rest : List Char) :
    SourceError.Explained (read ++ c :: rest)
      ⟨.badPropertyName, Position.advanceAll {} read⟩ := by
  apply explained_at
  exact .inl ⟨c, rfl, hblank, hname⟩

theorem ValueReader.eq_colon_of_step {r : ValueReader} {p : Position} {c : Char} {e : SourceError}
    (h : r.step p c = .error e) : c = ':' ∧ e = ⟨.unexpectedColon, p⟩ := by
  have hplain : ∀ r' : ValueReader, r'.stepPlain p c = .error e →
      c = ':' ∧ e = ⟨.unexpectedColon, p⟩ := by
    intro r' h'
    unfold stepPlain at h'
    split_ifs at h' with _ _ _ hcolon
    cases h'
    exact ⟨hcolon, rfl⟩
  unfold step at h
  split at h
  · exact hplain _ h
  · split_ifs at h
    exact hplain _ h
  · split at h <;> cases h

namespace DeclarationReader

/-- What a reader of a declaration knows of the text it has read: a name character is behind it, or
one and the blanks since. -/
def Follows (read : List Char) : DeclarationReader → Prop
  | .property _ => ∃ start last, read = start ++ [last] ∧ Text.isNameChar last = true
  | .gap _ since =>
    ∃ start last blanks, read = start ++ [last] ++ blanks ∧ Text.isNameChar last = true ∧
      blanks ≠ [] ∧ (∀ c ∈ blanks, Text.isBlank c = true) ∧
      since = Position.advanceAll {} (start ++ [last])
  | .value .. => True

variable {r : DeclarationReader} {read : List Char}

theorem accounts_start {c : Char} (hblank : Text.isBlank c = false) (rest : List Char) :
    Accounts (read ++ c :: rest) (Follows (read ++ [c]))
      (start (Position.advanceAll {} read) c) := by
  unfold start
  split_ifs with hname
  · exact ⟨read, c, rfl, hname⟩
  · exact explained_badPropertyName hblank (by simpa using hname) rest

theorem Follows.step (h : r.Follows read) (c : Char) (rest : List Char) :
    Accounts (read ++ c :: rest) (Step.elim (Follows (read ++ [c])) fun _ => True)
      (r.step (Position.advanceAll {} read) c) := by
  cases r with
  | property name =>
    obtain ⟨start, last, rfl, hlast⟩ := h
    unfold DeclarationReader.step
    split_ifs with hcolon hblank hname
    · trivial
    · exact ⟨start, last, [c], rfl, hlast, by simp, by simpa using hblank, rfl⟩
    · exact ⟨start ++ [last], c, rfl, hname⟩
    · exact explained_badPropertyName (by simpa using hblank) (by simpa using hname) rest
  | gap name since =>
    obtain ⟨start, last, blanks, rfl, hlast, hne, hblanks, rfl⟩ := h
    unfold DeclarationReader.step
    split_ifs with hcolon hblank hname
    · trivial
    · refine ⟨start, last, blanks ++ [c], by simp, hlast, by simp, ?_, rfl⟩
      rw [List.forall_mem_append, List.forall_mem_singleton]
      exact ⟨hblanks, hblank⟩
    · -- The fault is where the blanks start, and the second word comes behind them.
      rw [List.append_assoc (start ++ [last])]
      apply explained_at
      exact .inr ⟨start, last, blanks, c, rest, rfl, hlast, rfl, hne, hblanks, hname⟩
    · exact explained_badPropertyName (by simpa using hblank) (by simpa using hname) rest
  | value name reader =>
    simp only [DeclarationReader.step]
    cases hstep : reader.step (Position.advanceAll {} read) c with
    | error e =>
      obtain ⟨rfl, rfl⟩ := ValueReader.eq_colon_of_step hstep
      apply explained_at
      rfl
    | ok result => cases result <;> trivial

end DeclarationReader

/-- Where a slash has just been read, this is its place. -/
def BehindSlash (read : List Char) (first : Position) : Prop :=
  ∃ start, read = start ++ ['/'] ∧ first = Position.advanceAll {} start

theorem BehindSlash.explained {read : List Char} {first : Position} (h : BehindSlash read first)
    (rest : List Char) : SourceError.Explained (read ++ rest) ⟨.badPropertyName, first⟩ := by
  obtain ⟨start, rfl, rfl⟩ := h
  rw [List.append_assoc]
  exact explained_badPropertyName (by decide) (by decide) rest

namespace BlockReader

def Follows (read : List Char) (r : BlockReader) : Prop :=
  match r.mode with
  | .slash first => BehindSlash read first
  | .declaration declaration => declaration.Follows read
  | .idle | .comment _ => True

variable {r : BlockReader} {read : List Char}

theorem accounts_stepIdle (r : BlockReader) (read : List Char) (c : Char) (rest : List Char) :
    Accounts (read ++ c :: rest) (Sum.elim (Follows (read ++ [c])) fun _ => True)
      (r.stepIdle (Position.advanceAll {} read) c) := by
  unfold stepIdle
  split_ifs with hblank _ _ hslash
  · trivial
  · trivial
  · trivial
  · subst hslash
    exact ⟨read, rfl, rfl⟩
  · have hblank : Text.isBlank c = false := by
      simp only [Bool.or_eq_true, not_or, Bool.not_eq_true] at hblank
      exact hblank.1
    have hstart := @DeclarationReader.accounts_start read c hblank rest
    generalize DeclarationReader.start (Position.advanceAll {} read) c = result at hstart ⊢
    cases result <;> exact hstart

theorem Follows.step (h : r.Follows read) (c : Char) (rest : List Char) :
    Accounts (read ++ c :: rest) (Sum.elim (Follows (read ++ [c])) fun _ => True)
      (r.step (Position.advanceAll {} read) c) := by
  obtain ⟨mode, declarations⟩ := r
  cases mode with
  | idle => exact accounts_stepIdle _ read c rest
  | slash first =>
    simp only [BlockReader.step]
    split
    · trivial
    · exact BehindSlash.explained h (c :: rest)
  | comment comment =>
    simp only [BlockReader.step]
    split <;> trivial
  | declaration declaration =>
    have hstep := DeclarationReader.Follows.step h c rest
    simp only [BlockReader.step]
    generalize declaration.step (Position.advanceAll {} read) c = result at hstep ⊢
    cases result with
    | error e => exact hstep
    | ok next =>
      cases next with
      | more declaration => exact hstep
      | done declaration => trivial
      | closed declaration => trivial

theorem Follows.endFault (h : r.Follows read) :
    (r.endFault (Position.advanceAll {} read)).Explained read := by
  obtain ⟨mode, declarations⟩ := r
  cases mode with
  | slash first =>
    have hslash := BehindSlash.explained h []
    rwa [List.append_nil] at hslash
  | idle | comment | declaration => exact ⟨read, [], by simp, rfl, rfl⟩

end BlockReader

namespace StepsReader

def Follows (read : List Char) (r : StepsReader) : Prop :=
  ∀ selector block, r.mode = .block selector block → block.Follows read

variable {r : StepsReader} {read : List Char}

theorem follows_stepSelector (r : StepsReader) (read text : List Char) (c : Char) :
    (r.stepSelector text c).Follows read := by
  unfold stepSelector
  split_ifs
  · rintro _ _ ⟨⟩
    trivial
  · rintro _ _ ⟨⟩
  · rintro _ _ ⟨⟩

theorem Follows.step (h : r.Follows read) (c : Char) (rest : List Char) :
    Accounts (read ++ c :: rest) (Sum.elim (Follows (read ++ [c])) fun _ => True)
      (r.step (Position.advanceAll {} read) c) := by
  obtain ⟨mode, steps⟩ := r
  cases mode with
  | idle =>
    simp only [StepsReader.step]
    split_ifs
    · rintro _ _ ⟨⟩
    · trivial
    · rintro _ _ ⟨⟩
    · rintro _ _ ⟨⟩
    · exact follows_stepSelector _ _ _ c
  | slash =>
    simp only [StepsReader.step]
    split
    · rintro _ _ ⟨⟩
    · exact follows_stepSelector _ _ _ c
  | comment comment =>
    simp only [StepsReader.step]
    split <;> rintro _ _ ⟨⟩
  | selector text => exact follows_stepSelector _ _ _ c
  | block selector block =>
    have hstep := (h selector block rfl).step c rest
    simp only [StepsReader.step]
    generalize block.step (Position.advanceAll {} read) c = result at hstep ⊢
    cases result with
    | error e => exact hstep
    | ok next =>
      cases next with
      | inl block =>
        rintro _ _ ⟨⟩
        exact hstep
      | inr declarations => rintro _ _ ⟨⟩

theorem Follows.endFault (h : r.Follows read) :
    (r.endFault (Position.advanceAll {} read)).Explained read := by
  obtain ⟨mode, steps⟩ := r
  cases mode with
  | block selector block => exact (h selector block rfl).endFault
  | idle | slash | comment | selector => exact ⟨read, [], by simp, rfl, rfl⟩

end StepsReader

/-- Where nothing but blanks has been read since `@keyframes`. -/
def BehindKeyframes (read : List Char) : Prop :=
  ∃ start blanks, read = start ++ "@keyframes".toList ++ blanks ∧
    ∀ c ∈ blanks, Text.isBlank c = true

namespace Reader

def Follows (read : List Char) (r : Reader) : Prop :=
  match r.mode with
  | .slash first => BehindSlash read first
  | .declaration declaration => declaration.Follows read
  | .pseudo _ _ block => block.Follows read
  | .keyframes _ steps => steps.Follows read
  | .word name => ∃ start, read = start ++ '@' :: name.reverse
  | .keyframesName name => name = [] → BehindKeyframes read
  | .idle | .comment _ | .selector .. | .header .. | .arguments .. | .keyframesHeader _ => True

variable {r : Reader} {read : List Char}

theorem follows_of_idle (h : r.mode = .idle) : r.Follows read := by
  simp only [Follows, h]

/-- The word `keyframes` behind an at sign. -/
theorem behindKeyframes_of_word {name start : List Char} (hname : textOf name = "keyframes")
    (hread : read = start ++ '@' :: name.reverse) : BehindKeyframes read := by
  have hchars : name.reverse = "keyframes".toList := by rw [← hname, toList_textOf]
  refine ⟨start, [], ?_, by simp⟩
  rw [hread, hchars, List.append_nil]
  rfl

/-- At every step a reader goes on knowing what is behind it, or the text explains its error. -/
theorem Follows.takes {mode : Mode} {c : Char} {result : Except SourceError Reader}
    (h : (r.enter mode).Follows read) (htakes : r.Takes (Position.advanceAll {} read) c mode result)
    (rest : List Char) : Accounts (read ++ c :: rest) (Follows (read ++ [c])) result := by
  induction htakes with
  | skip | hash | colon | startComment | commentMore | commentEnd | declarationEnd | selectorOpen
    | selectorBlank | selectorMore | pseudoEnd | headerBlank | headerOpen | headerArguments
    | argumentsMore | argumentsEnd | nameEnd | keyframesBlank | keyframesEnd => trivial
  | slash hc =>
    subst hc
    exact ⟨read, rfl, rfl⟩
  | sign hc =>
    subst hc
    exact ⟨read, rfl⟩
  | close _ hclose => exact follows_of_idle (mode_of_closeBlock? hclose)
  | property hc => exact ⟨read, c, rfl, hc⟩
  | noItem hblank hname => exact explained_badPropertyName hblank hname rest
  | noComment => exact BehindSlash.explained h (c :: rest)
  | declarationFault hstep => exact (DeclarationReader.Follows.step h c rest).of_error hstep
  | declarationMore hstep => exact (DeclarationReader.Follows.step h c rest).of_ok hstep
  | declarationClose _ hclose => exact follows_of_idle (mode_of_closeBlock? hclose)
  | declarationUnclosed hstep =>
    cases DeclarationReader.eq_brace_of_closed hstep
    exact explained_badPropertyName (by decide) (by decide) rest
  | pseudoFault hstep => exact (BlockReader.Follows.step h c rest).of_error hstep
  | pseudoMore hstep => exact (BlockReader.Follows.step h c rest).of_ok hstep
  | wordMore =>
    obtain ⟨start, rfl⟩ := h
    exact ⟨start, by simp⟩
  | wordKeyframes _ hname _ ih =>
    obtain ⟨start, hread⟩ := h
    exact ih fun _ => behindKeyframes_of_word hname hread
  | wordHeader _ _ _ ih => exact ih trivial
  | headerFault hblank hc =>
    apply explained_at
    exact ⟨c, rfl, hblank, hc⟩
  | nameSkip hblank =>
    intro _
    obtain ⟨start, blanks, rfl, hblanks⟩ := h rfl
    refine ⟨start, blanks ++ [c], by simp, ?_⟩
    rw [List.forall_mem_append, List.forall_mem_singleton]
    exact ⟨hblanks, hblank⟩
  | nameMissing hc =>
    subst hc
    apply explained_at
    exact ⟨.inr rfl, h rfl⟩
  | nameOpen => rintro _ _ ⟨⟩
  | nameMore => rintro ⟨⟩
  | keyframesOpen => rintro _ _ ⟨⟩
  | keyframesNoBlock hblank hc =>
    apply explained_at
    exact ⟨c, rfl, hblank, hc⟩
  | keyframesFault hstep => exact (StepsReader.Follows.step h c rest).of_error hstep
  | keyframesMore hstep => exact (StepsReader.Follows.step h c rest).of_ok hstep

theorem Follows.feed (h : r.Follows read) (cs : List Char) :
    Accounts (read ++ cs) (Follows (read ++ cs)) (r.feed (Position.advanceAll {} read) cs) := by
  induction cs generalizing r read with
  | nil => simpa [Accounts, Reader.feed] using h
  | cons c cs ih =>
    have hstep := Follows.takes h (r.takes_step _ c) cs
    have hposition : (Position.advanceAll {} read).advance c =
        Position.advanceAll {} (read ++ [c]) := by
      rw [Position.advanceAll_append, Position.advanceAll_cons, Position.advanceAll_nil]
    unfold Reader.feed
    generalize r.step (Position.advanceAll {} read) c = result at hstep ⊢
    cases result with
    | error e => exact hstep
    | ok r' =>
      rw [hposition, List.append_cons]
      exact ih hstep

theorem accounts_feed (cs : List Char) :
    Accounts cs (Follows cs) (Reader.feed {} {} cs) :=
  @Follows.feed {} [] trivial cs

theorem explained_of_finishIdle {e : SourceError}
    (h : r.finishIdle (Position.advanceAll {} read) = .error e) : e.Explained read := by
  unfold finishIdle at h
  split_ifs at h
  cases h
  exact ⟨read, [], by simp, rfl, rfl⟩

/-- Also at the end. -/
theorem Follows.finish (h : r.Follows read) {e : SourceError}
    (hfinish : r.finish (Position.advanceAll {} read) = .error e) : e.Explained read := by
  have hend : SourceError.Explained read ⟨.unexpectedEnd, Position.advanceAll {} read⟩ :=
    ⟨read, [], by simp, rfl, rfl⟩
  have hkeyframes : BehindKeyframes read →
      SourceError.Explained read ⟨.missingKeyframesName, Position.advanceAll {} read⟩ :=
    fun hread => ⟨read, [], by simp, rfl, .inl rfl, hread⟩
  cases hmode : r.mode with
  | idle =>
    simp only [Reader.finish, hmode] at hfinish
    exact explained_of_finishIdle hfinish
  | slash first =>
    simp only [Follows, hmode] at h
    simp only [Reader.finish, hmode] at hfinish
    cases hfinish
    simpa using h.explained []
  | comment comment =>
    simp only [Reader.finish, hmode] at hfinish
    exact explained_of_finishIdle hfinish
  | declaration declaration =>
    simp only [Reader.finish, hmode] at hfinish
    split at hfinish
    · exact explained_of_finishIdle hfinish
    · cases hfinish
      exact hend
  | pseudo id selector block =>
    simp only [Follows, hmode] at h
    simp only [Reader.finish, hmode] at hfinish
    cases hfinish
    exact h.endFault
  | keyframes name steps =>
    simp only [Follows, hmode] at h
    simp only [Reader.finish, hmode] at hfinish
    cases hfinish
    exact h.endFault
  | word name =>
    simp only [Follows, hmode] at h
    obtain ⟨start, hread⟩ := h
    simp only [Reader.finish, hmode] at hfinish
    split_ifs at hfinish with hname <;> cases hfinish
    · exact hkeyframes (behindKeyframes_of_word hname hread)
    · exact hend
  | keyframesName name =>
    simp only [Follows, hmode] at h
    simp only [Reader.finish, hmode] at hfinish
    split_ifs at hfinish with hname <;> cases hfinish
    · exact hkeyframes (h (by simpa using hname))
    · exact hend
  | selector | header | arguments | keyframesHeader =>
    simp only [Reader.finish, hmode] at hfinish
    cases hfinish
    exact hend

end Reader

end Source

open Source

/-- Every error points at its cause: its line and column are those of a place in the source, counted
in line breaks and in characters, and what its fault says is true there. -/
theorem parse_error_pointsAt {source : String} {e : SourceError} (h : parse source = .error e) :
    ∃ before after, source.toList = before ++ after ∧
      e.position.line = 1 + before.count '\n' ∧
      e.position.column = 1 + (before.reverse.takeWhile (· != '\n')).length ∧
      e.fault.PointsAt before after := by
  have hexplained : e.Explained source.toList := by
    have hfeed := Reader.accounts_feed source.toList
    unfold parse Reader.read at h
    cases hr : Reader.feed {} {} source.toList with
    | error e' =>
      rw [hr] at h
      cases h
      exact hfeed.of_error hr
    | ok r =>
      rw [hr] at h
      exact (hfeed.of_ok hr).finish h
  obtain ⟨before, after, hsource, hposition, hpoints⟩ := hexplained
  rw [Position.advanceAll_start] at hposition
  refine ⟨before, after, hsource, ?_, ?_, hpoints⟩
  · rw [hposition]
  · rw [hposition]

/-- A property name in two words, in a block in a conditional: the fault is where the first word
ends. -/
theorem parse_error_pointsAt_words :
    let e : SourceError := ⟨.badPropertyName, ⟨2, 6⟩⟩
    parse "@odd\x7b:a\x7b\n  wid \n th: 1px;\x7d\x7d" = .error e ∧
    ∃ before after, "@odd\x7b:a\x7b\n  wid \n th: 1px;\x7d\x7d".toList = before ++ after ∧
      e.position.line = 1 + before.count '\n' ∧
      e.position.column = 1 + (before.reverse.takeWhile (· != '\n')).length ∧
      e.fault.PointsAt before after := by
  intro e
  have h : parse "@odd\x7b:a\x7b\n  wid \n th: 1px;\x7d\x7d" = .error e := rfl
  exact ⟨h, parse_error_pointsAt h⟩

end GridCss
