import TableDialects.Proofs.Statement.Joining

/-!
# Blocks with a terminator of their own

A directive sets the terminator for the lines of a block, and a second one sets the semicolon
again. Semicolons mean nothing in between: the lines are one statement, and behind them the
splitter is at the start of a script.
-/
namespace TableDialects.Statement

/-- A terminator that a directive can set and in which the splitter finds nothing else. -/
structure Delimiter (t : Text) : Prop where
  ne_nil : t ≠ []
  blanks : ∀ c ∈ t, Text.isBlank c = false
  quotes : ∀ c ∈ t, Token.isQuote c = false
  dashes : ¬"--".toList <:+: t

section
variable {term P t line : Text} {ls : List Text}

private theorem blank_eq_false (h : t ≠ []) (hb : ∀ c ∈ t, Text.isBlank c = false) :
    Text.blank t = false := by
  obtain ⟨c, u, rfl⟩ := List.exists_cons_of_ne_nil h
  simp [Text.blank, hb c List.mem_cons_self]

/-- A line that sets a terminator. -/
theorem ofLines_directive (hb : Text.blank line = false) (hd : ¬"--".toList <:+: line)
    (h : directive? line = some t) :
    ofLines term P none (line :: ls) = ofLines t [] none ls := by
  rw [ofLines, not_comment_of_not_infix hd, hb]
  simp [h]

namespace Delimiter

private theorem words_directive (h : Delimiter t) :
    Text.words ("DELIMITER ".toList ++ t) = ["DELIMITER".toList, t] := by
  have happend : "DELIMITER ".toList ++ t = "DELIMITER".toList ++ ' ' :: t := rfl
  rw [happend, Text.words_append_cons (by decide), Text.words_of_forall h.ne_nil h.blanks]
  rfl

private theorem directive?_eq (h : Delimiter t) :
    directive? ("DELIMITER ".toList ++ t) = some t := by
  rw [directive?, h.words_directive]
  rfl

private theorem not_dashes (h : Delimiter t) : ¬"--".toList <:+: "DELIMITER ".toList ++ t :=
  fun hp => h.dashes (Text.pair_infix_of_append (by decide) hp)

/-- The terminator in a line of its own is not a directive. -/
theorem directive?_self (h : Delimiter t) : directive? t = none := by
  rw [directive?, Text.words_of_forall h.ne_nil h.blanks]

/-- The terminator in a line of its own closes the open statement. -/
theorem cut_self (h : Delimiter t) : cut t none t = ⟨[[]], [], none⟩ := by
  obtain ⟨c, u, rfl⟩ := List.exists_cons_of_ne_nil h.ne_nil
  have hd := h.dashes
  rw [show "--".toList = ['-', '-'] from rfl, Text.pair_infix_cons, not_or] at hd
  have hdrop : u.drop ((c :: u).length - 1) = [] := by simp
  rw [cut, h.quotes c List.mem_cons_self, if_neg Bool.false_ne_true, if_neg hd.1,
    if_pos (List.isPrefixOf_iff_prefix.2 List.prefix_rfl), hdrop, cut_nil]

private theorem ofLines_self (h : Delimiter t) :
    ofLines t P none (t :: ls) = closed t P ++ ofLines t [] none ls := by
  rw [ofLines, not_comment_of_not_infix h.dashes, blank_eq_false h.ne_nil h.blanks,
    h.directive?_self, h.cut_self]
  simp [extended, Text.blank]

end Delimiter

end

/-- The lines between the directive and the terminator. -/
structure Block (t b : Text) : Prop where
  not_blank : Text.blank b = false
  quotes : ∀ c ∈ b, Token.isQuote c = false
  dashes : ¬"--".toList <:+: b
  returns : '\r' ∉ b
  terminator : ¬t <:+: b
  directives : ∀ line ∈ lines b, directive? line = none

/-- What is kept of the lines of a text. -/
def keptLines (b : Text) : Text := (Text.pieces (· == '\n') b).flatMap kept

private theorem blank_keptLines (b : Text) : Text.blank (keptLines b) = Text.blank b := by
  have hkept : ∀ l, Text.blank (kept l) = Text.blank l := by
    intro l
    unfold kept
    split
    · next hl => rw [hl]; rfl
    · rw [Text.blank_append]
      exact Bool.and_true _
  have hbreak : ∀ c : Char, (c == '\n') = true → Text.isBlank c = true := by
    simp [Text.isBlank]
  calc Text.blank (keptLines b)
      = (Text.pieces (· == '\n') b).all fun l => Text.blank (kept l) := List.all_flatMap
    _ = (Text.pieces (· == '\n') b).all Text.blank := by simp only [hkept]
    _ = Text.blank b := Text.all_blank_pieces hbreak b

namespace Block

variable {t b : Text}

private theorem uncut (h : Block t b) {l : Text} (hl : l ∈ Text.pieces (· == '\n') b) :
    Uncut t l where
  quotes c hc := h.quotes c ((Text.infix_of_mem_pieces hl).subset hc)
  dashes hp := h.dashes (hp.trans (Text.infix_of_mem_pieces hl))
  terminator hp := h.terminator (hp.trans (Text.infix_of_mem_pieces hl))
  directive := by
    by_cases hnil : l = []
    · subst hnil
      rfl
    · refine h.directives l ?_
      rw [lines, lineFeeds_of_not_mem h.returns]
      split
      · next hlast =>
        obtain ⟨ks, hks⟩ := List.getLast?_eq_some_iff.1 hlast
        rw [hks] at hl ⊢
        simpa [hnil] using hl
      · exact hl

private theorem lines_eq (h : Block t b) (ht : Delimiter t) :
    lines ("DELIMITER ".toList ++ t ++ "\n".toList ++ b ++ "\n".toList ++ t ++
        "\nDELIMITER ;\n".toList) =
      ("DELIMITER ".toList ++ t) ::
        (Text.pieces (· == '\n') b ++ [t, "DELIMITER ;".toList]) := by
  have hreturn : '\r' ∉ t := fun h => absurd (ht.blanks '\r' h) (by decide)
  have hnewline : '\n' ∉ t := fun h => absurd (ht.blanks '\n' h) (by decide)
  have hline : ∀ u : Text, '\n' ∉ u → Text.pieces (· == '\n') u = [u] := by
    intro u hu
    refine Text.pieces_of_forall fun c hc => ?_
    have : c ≠ '\n' := by rintro rfl; exact hu hc
    simpa using this
  have happend : "DELIMITER ".toList ++ t ++ "\n".toList ++ b ++ "\n".toList ++ t ++
        "\nDELIMITER ;\n".toList = ("DELIMITER ".toList ++ t) ++ '\n' :: (b ++ '\n' ::
          (t ++ '\n' :: ("DELIMITER ;".toList ++ ['\n']))) := by
    simp
  rw [lines, happend, lineFeeds_of_not_mem (by simp [hreturn, h.returns])]
  change linesOf _ = _
  rw [linesOf_append, linesOf_append, linesOf_append, linesOf_append, linesOf_nil,
    hline (_ ++ t) (by simp [hnewline]), hline t hnewline]
  rfl

end Block

/-- A block between directives is one statement, whatever semicolons it has, and the script after
it is read as by itself. -/
theorem split_block {t b : Text} (ht : Delimiter t) (hb : Block t b) (s : Text) :
    split ("DELIMITER ".toList ++ t ++ "\n".toList ++ b ++ "\n".toList ++ t ++
        "\nDELIMITER ;\n".toList ++ s) =
      ⟨Text.trim (keptLines b), t⟩ :: split s := by
  have hfirst : Text.blank ("DELIMITER ".toList ++ t) = false := by
    rw [Text.blank_append]
    rfl
  have hclosed : closed t (keptLines b) = [⟨Text.trim (keptLines b), t⟩] := by
    rw [closed, blank_keptLines, hb.not_blank]
    rfl
  have hlast : ("DELIMITER ".toList ++ t ++ "\n".toList ++ b ++ "\n".toList ++ t ++
        "\nDELIMITER ;\n".toList).getLast? = some '\n' := by
    rw [List.getLast?_append]
    rfl
  rw [split, lines_append (.inr hlast), hb.lines_eq ht, List.cons_append,
    ofLines_directive hfirst ht.not_dashes ht.directive?_eq, List.append_assoc,
    ofLines_uncut fun l hl => hb.uncut hl]
  change ofLines t (keptLines b) none (t :: "DELIMITER ;".toList :: lines s) = _
  rw [ht.ofLines_self, hclosed, ofLines_directive rfl (by decide +kernel) rfl]
  rfl

/-- The block has semicolons, blank lines and single dashes. -/
theorem split_block_trigger :
    let t : Text := "$$"
    let b : Text := "\nCREATE TRIGGER n BEFORE INSERT ON a\n \nBEGIN SET x = 1 - y; SET z = 2; END\n"
    let s : Text := "DROP TABLE a; SELECT 1;"
    Delimiter t ∧ Block t b ∧
      split ("DELIMITER ".toList ++ t ++ "\n".toList ++ b ++ "\n".toList ++ t ++
          "\nDELIMITER ;\n".toList ++ s) =
        [⟨"CREATE TRIGGER n BEFORE INSERT ON a\n\nBEGIN SET x = 1 - y; SET z = 2; END".toList, t⟩,
          ⟨"DROP TABLE a".toList, ";".toList⟩, ⟨"SELECT 1".toList, ";".toList⟩] := by
  intro t b s
  have hblanks : t.all (fun c => !Text.isBlank c) = true := by decide +kernel
  have hsigns : t.all (fun c => !Token.isQuote c) = true := by decide +kernel
  have ht : Delimiter t :=
    ⟨by decide, by simpa using hblanks, by simpa using hsigns, by decide +kernel⟩
  have hquotes : b.all (fun c => !Token.isQuote c) = true := by decide +kernel
  have hb : Block t b :=
    ⟨by decide +kernel, by simpa using hquotes, by decide +kernel, by decide +kernel,
      by decide +kernel, by decide +kernel⟩
  refine ⟨ht, hb, ?_⟩
  rw [split_block ht hb s]
  decide +kernel

end TableDialects.Statement
