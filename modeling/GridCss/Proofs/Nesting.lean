import GridCss.Proofs.ReadBack
import GridCss.Proofs.Concatenation

/-!
# Sources in a conditional

A reader looks at the conditionals around its list of items only at a brace that closes one of them.
As long as it closes none that were open before, it reads on in the same way within further
conditionals. A source that can be read closes what it opens and nothing else, and so it is read as
the same items between the braces of a conditional.
-/

namespace GridCss

mutual

theorem Item.renumber_zero : ∀ item : Item, item.renumber 0 = item
  | .declaration _ | .pseudo _ | .keyframes _ | .comment _ => rfl
  | .conditional name arguments items => by
    rw [Item.renumber, Item.renumberAll_zero items]

theorem Item.renumberAll_zero : ∀ items : List Item, Item.renumberAll 0 items = items
  | [] => rfl
  | item :: rest => by
    rw [Item.renumberAll, Item.renumber_zero item, Item.renumberAll_zero rest]

end

namespace Source

/-- In front of a text there is the head of a conditional without arguments. -/
def Front.ofHead (name : String) : Front :=
  let head := '@' :: name.toList ++ ['{']
  { lines := head.count '\n'
    columns := (head.reverse.takeWhile (· != '\n')).length
    outer := [⟨name, [], []⟩] }

theorem Front.position_ofHead (name : String) :
    (Front.ofHead name).position {} = Position.advanceAll {} ('@' :: name.toList ++ ['{']) := by
  rw [Position.advanceAll_start]
  rfl

namespace Reader

/-- The name of a conditional without arguments and its opening brace. -/
theorem opening_leads {name : String} (hname : ∀ c ∈ name.toList, Text.isNameChar c = true)
    (hkeyframes : name ≠ "keyframes") :
    Leads next {} ('@' :: name.toList ++ ['{']) ((Front.ofHead name).reader {}) := by
  have hbrace : ∀ p, next ⟨.word name.toList.reverse, [], [], 0⟩ p '{' =
      some ((Front.ofHead name).reader {}) :=
    fun _ => Takes.next_eq (.ofWord (by decide) hkeyframes (.headerOpen rfl))
  exact (word_leads hname).append (.single hbrace)

end Reader
end Source

open Source

/-- A source that ends with a semicolon outside of comments is read between the braces of a
conditional as it is read alone. -/
theorem parse_conditional {source : String} {items : List Item}
    (hend : source.toList.getLast? = some ';') (hparse : parse source = .ok items)
    (hlast : ∀ text, items.getLast? ≠ some (.comment text)) {name : String}
    (hname : Text.IsName name) (hkeyframes : name ≠ "keyframes") :
    parse ("@" ++ name ++ "\x7b" ++ source ++ "\x7d") = .ok [.conditional name [] items] := by
  obtain ⟨r, hfeed, hfinish⟩ := parse_eq_ok hparse
  obtain ⟨cs, hcs⟩ := List.getLast?_eq_some_iff.mp hend
  obtain ⟨r₀, p, hstep⟩ := Reader.exists_last_step (hcs ▸ hfeed)
  obtain ⟨hmode, henclosing, hitems⟩ := Reader.mode_after_semicolon hstep hfinish hlast
  have hopening := Reader.feed_of_leads (Reader.opening_leads hname.2 hkeyframes) {}
  have hinside := @Front.reader_feed (Front.ofHead name) {} {} (by decide) source.toList
    (.inr ⟨r, hfeed⟩)
  rw [hfeed, Front.position_ofHead] at hinside
  have htext : ("@" ++ name ++ "\x7b" ++ source ++ "\x7d").toList =
      ('@' :: name.toList ++ ['{']) ++ (source.toList ++ ['}']) := by
    simp [String.toList_append]
  rw [parse, htext, Reader.read_append hopening, Reader.read_append hinside]
  obtain ⟨mode, items', enclosing, nextId⟩ := r
  dsimp only at hmode henclosing hitems
  subst hmode henclosing hitems
  -- The brace behind the source closes the conditional in front of it.
  have hitems : (Front.ofHead name).itemsIn [] items' = items' := Item.renumberAll_zero items'
  simp only [Front.reader, hitems]
  rfl

/-- A block, a conditional and a call, with braces in comments and quotes. -/
theorem parse_conditional_nested :
    let items : List Item :=
      [.pseudo ⟨0, ":a", [⟨"b", [.call "c" [[.text "\x7d"]]]⟩]⟩,
        .conditional "d" [] [.pseudo ⟨1, ":e", []⟩], .comment "\x7d",
        .declaration ⟨"f", [.text "g"]⟩]
    ":a\x7bb:@c('\x7d')\x7d@d\x7b:e\x7b\x7d\x7d/*\x7d*/f:g;".toList.getLast? = some ';' ∧
    parse ":a\x7bb:@c('\x7d')\x7d@d\x7b:e\x7b\x7d\x7d/*\x7d*/f:g;" = .ok items ∧
    (∀ text, items.getLast? ≠ some (.comment text)) ∧ Text.IsName "odd" ∧ "odd" ≠ "keyframes" ∧
    parse ("@" ++ "odd" ++ "\x7b" ++ ":a\x7bb:@c('\x7d')\x7d@d\x7b:e\x7b\x7d\x7d/*\x7d*/f:g;" ++
      "\x7d") = .ok [.conditional "odd" [] items] := by
  intro items
  have hend : ":a\x7bb:@c('\x7d')\x7d@d\x7b:e\x7b\x7d\x7d/*\x7d*/f:g;".toList.getLast? =
      some ';' := by decide
  have hparse : parse ":a\x7bb:@c('\x7d')\x7d@d\x7b:e\x7b\x7d\x7d/*\x7d*/f:g;" = .ok items := rfl
  have hlast : ∀ text, items.getLast? ≠ some (.comment text) := by simp [items]
  have hname : Text.IsName "odd" := ⟨by decide, List.all_eq_true.mp (by decide)⟩
  exact ⟨hend, hparse, hlast, hname, by decide,
    parse_conditional hend hparse hlast hname (by decide)⟩

end GridCss
