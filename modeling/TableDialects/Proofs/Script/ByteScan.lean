import TableDialects.Proofs.Script.Segment
import TableDialects.Proofs.Text.Bytes

/-!
# Segments by bytes

A scanner that goes over the bytes of a script, skips an escape by two bytes and looks for the end
of a quoted name by its byte finds the segments of the script, so none of its cuts splits a
character.
-/
namespace TableDialects

namespace Text

/-- Where the first `mark` stands in the bytes. -/
def position? (mark : List UInt8) : List UInt8 → Option Nat
  | [] => none
  | b :: bs => if mark.isPrefixOf (b :: bs) then some 0 else (position? mark bs).map (· + 1)

section
variable {d : Char} {mark t : Text} {hs : List UInt8}

/-- No ASCII mark begins within a character. -/
theorem position?_append (hd : d.toNat < 128) (hhs : ∀ x ∈ hs, 128 ≤ x) (bs : List UInt8) :
    position? (bytes (d :: mark)) (hs ++ bs) =
      (position? (bytes (d :: mark)) bs).map (· + hs.length) := by
  induction hs with
  | nil => simp
  | cons x hs ih =>
    obtain ⟨hx, hhs⟩ := List.forall_mem_cons.1 hhs
    have hprefix : (bytes (d :: mark)).isPrefixOf (x :: (hs ++ bs)) = false := by
      rw [bytes_cons, encode_of_lt hd, List.singleton_append, List.isPrefixOf,
        beq_eq_false_iff_ne.2 (ne_toUInt8 hd hx).symm, Bool.false_and]
    rw [List.cons_append, position?, hprefix, if_neg (by simp), ih hhs, Option.map_map]
    rfl

/-- The search by bytes ends where the search by characters does. -/
theorem position?_bytes (hm : ∀ c ∈ d :: mark, c.toNat < 128) :
    (position? (bytes (d :: mark)) (bytes t)).elim (utf8Length t) (· + (bytes (d :: mark)).length) =
      utf8Length (t.take (Segment.lengthPast (d :: mark) t)) := by
  induction t with
  | nil => rfl
  | cons c t ih =>
    obtain ⟨b, hs, hbytes, hhs, -⟩ := exists_encode c
    have hprefix := isPrefixOf_bytes (t := c :: t) hm
    rw [Segment.lengthPast_cons]
    rw [bytes_cons c t, hbytes, List.cons_append] at hprefix ⊢
    rw [position?, hprefix]
    by_cases hp : (d :: mark).isPrefixOf (c :: t) = true
    · obtain ⟨r, hr⟩ := List.isPrefixOf_iff_prefix.1 hp
      rw [if_pos hp, if_pos hp, ← hr, List.take_left, length_bytes]
      exact Nat.zero_add _
    · have hsize : c.utf8Size = hs.length + 1 := by
        rw [← String.length_utf8EncodeChar, hbytes, List.length_cons]
      rw [if_neg hp, if_neg hp, List.take_succ_cons, utf8Length_cons, utf8Length_cons, ← ih,
        position?_append (hm d List.mem_cons_self) hhs, hsize]
      cases position? (bytes (d :: mark)) (bytes t) with
      | none => rfl
      | some n =>
        simp only [Option.map_some, Option.elim_some]
        omega

end

end Text

namespace Segment

open Text (bytes)

/-- The index past the next `mark` at or after `i`, or past the end. -/
def skipPast (bs : List UInt8) (i : Nat) (mark : Text) : Nat :=
  let first := min i bs.length
  match Text.position? (bytes mark) (bs.drop first) with
  | some n => first + n + (bytes mark).length
  | none => bs.length

/-- The index past the literal that goes on at `i`. -/
def literalEnd (bs : List UInt8) (i : Nat) : Nat :=
  if _h : i < bs.length then
    if bs[i] = '\\'.toUInt8 then literalEnd bs (i + 2)
    else if bs[i] = '\''.toUInt8 then
      if bs[i + 1]? = some '\''.toUInt8 then literalEnd bs (i + 2) else i + 1
    else literalEnd bs (i + 1)
  else bs.length
termination_by bs.length - i

/-- The index past the byte `b` at `i`, or past the quoted name or comment that it opens. -/
def unitEnd (bs : List UInt8) (i : Nat) (b : UInt8) : Nat :=
  if b = '\x60'.toUInt8 then skipPast bs (i + 1) ['\x60']
  else if b = '\"'.toUInt8 then skipPast bs (i + 1) ['\"']
  else if b = '-'.toUInt8 ∧ bs[i + 1]? = some '-'.toUInt8 then skipPast bs (i + 2) ['\n']
  else if b = '/'.toUInt8 ∧ bs[i + 1]? = some '*'.toUInt8 then skipPast bs (i + 2) ['*', '/']
  else i + 1

section
variable {bs hs rest : List UInt8} {i : Nat} {b : UInt8} {c d q : Char} {r t mark : Text}

private theorem le_skipPast (bs : List UInt8) (i : Nat) (mark : Text) :
    min i bs.length ≤ skipPast bs i mark := by
  unfold skipPast
  dsimp only
  split <;> omega

private theorem le_literalEnd (bs : List UInt8) (i : Nat) : min i bs.length ≤ literalEnd bs i := by
  fun_induction literalEnd bs i <;> omega

private theorem lt_unitEnd (h : i < bs.length) (b : UInt8) : i < unitEnd bs i b := by
  have hpast : ∀ n mark, i < skipPast bs (i + (n + 1)) mark := by
    intro n mark
    have := le_skipPast bs (i + (n + 1)) mark
    omega
  unfold unitEnd
  split_ifs
  exacts [hpast 0 _, hpast 0 _, hpast 1 _, hpast 1 _, Nat.lt_succ_self i]

/-- The segments from the index `start` on, where code goes on at least to `i`, or nothing if a cut
splits a character. -/
def scan? (t : Text) (start i : Nat) : Option (List Segment) :=
  if h : i < (bytes t).length then
    if (bytes t)[i] = '\''.toUInt8 then do
      let last := literalEnd (bytes t) (i + 1)
      let code ← Text.slice? t start i
      let literal ← Text.slice? t i last
      let rest ← scan? t last last
      return ⟨false, code⟩ :: ⟨true, literal⟩ :: rest
    else scan? t start (unitEnd (bytes t) i (bytes t)[i])
  else do
    let code ← Text.slice? t start (bytes t).length
    return [⟨false, code⟩]
termination_by (bytes t).length - i
decreasing_by
  · have := le_literalEnd (bytes t) (i + 1)
    omega
  · have := lt_unitEnd h (bytes t)[i]
    omega

/-- The bytes from the index `i` on are those of `r`. -/
structure Remains (bs : List UInt8) (i : Nat) (r : Text) : Prop where
  le : i ≤ bs.length
  drop : bs.drop i = bytes r

theorem Remains.length_eq (h : Remains bs i r) : bs.length = i + Text.utf8Length r := by
  have := congrArg List.length h.drop
  rw [List.length_drop, Text.length_bytes] at this
  have := h.le
  omega

theorem drop_succ {l : List UInt8} (h : bs.drop i = b :: l) :
    ∃ hi : i < bs.length, bs[i] = b ∧ bs.drop (i + 1) = l := by
  have hi : i < bs.length := by
    have := congrArg List.length h
    rw [List.length_drop, List.length_cons] at this
    omega
  rw [List.drop_eq_getElem_cons hi, List.cons.injEq] at h
  exact ⟨hi, h⟩

private theorem drop_length {l : List UInt8} (h : bs.drop i = hs ++ l) :
    bs.drop (i + hs.length) = l := by
  rw [← List.drop_drop, h, List.drop_left]

/-- A character stands at the index, its first byte first. -/
theorem Remains.exists_getElem (h : Remains bs i (c :: r)) :
    ∃ hi : i < bs.length, (∀ d : Char, d.toNat < 128 → (bs[i] = d.toUInt8 ↔ c = d)) ∧
      ∃ hs, (∀ x ∈ hs, 128 ≤ x) ∧ c.utf8Size = hs.length + 1 ∧
        bs.drop (i + 1) = hs ++ bytes r := by
  obtain ⟨b, hs, hbytes, hhs, hb⟩ := Text.exists_encode c
  have hdrop := h.drop
  rw [Text.bytes_cons, hbytes, List.cons_append] at hdrop
  obtain ⟨hi, rfl, hrest⟩ := drop_succ hdrop
  refine ⟨hi, hb, hs, hhs, ?_, hrest⟩
  rw [← String.length_utf8EncodeChar, hbytes, List.length_cons]

theorem Remains.tail (h : Remains bs i (c :: r)) : Remains bs (i + c.utf8Size) r := by
  have hlen := h.length_eq
  obtain ⟨-, -, hs, -, hsize, hdrop⟩ := h.exists_getElem
  rw [Text.utf8Length_cons] at hlen
  refine ⟨by omega, ?_⟩
  rw [hsize, Nat.add_comm hs.length, ← Nat.add_assoc, drop_length hdrop]

private theorem Remains.getElem?_eq (h : Remains bs i r) {d : Char} (hd : d.toNat < 128) :
    bs[i]? = some d.toUInt8 ↔ r.head? = some d := by
  cases r with
  | nil => simp [List.getElem?_eq_none (show bs.length ≤ i from Nat.le_of_eq h.length_eq)]
  | cons c r =>
    obtain ⟨hi, hc, -⟩ := h.exists_getElem
    rw [List.getElem?_eq_getElem hi, List.head?_cons, Option.some_inj, Option.some_inj, hc d hd]

private theorem literalEnd_of_trail (hhs : ∀ x ∈ hs, 128 ≤ x) (h : bs.drop i = hs ++ rest) :
    literalEnd bs i = literalEnd bs (i + hs.length) := by
  induction hs generalizing i with
  | nil => rfl
  | cons x hs ih =>
    obtain ⟨hx, htrail⟩ := List.forall_mem_cons.1 hhs
    obtain ⟨hi, rfl, hdrop⟩ := drop_succ h
    rw [literalEnd, dif_pos hi, if_neg (Text.ne_toUInt8 (by decide) hx),
      if_neg (Text.ne_toUInt8 (by decide) hx), ih htrail hdrop, List.length_cons,
      Nat.add_right_comm, Nat.add_assoc]

/-- A literal ends by its bytes where it does by its characters. -/
theorem literalEnd_eq (h : Remains bs i r) :
    literalEnd bs i = i + Text.utf8Length (r.take (literalLength r)) := by
  have hslash : '\\'.utf8Size = 1 := rfl
  have hquote : '\''.utf8Size = 1 := rfl
  induction r using literalLength.induct generalizing i with
  | case1 =>
    have hlen : bs.length = i := h.length_eq
    rw [literalEnd, dif_neg (Nat.not_lt.2 (Nat.le_of_eq hlen))]
    exact hlen
  | case2 d cs ih =>
    -- the escape is skipped by two bytes, and the rest of a longer character byte by byte
    obtain ⟨hi, hb, -⟩ := h.exists_getElem
    have htail : Remains bs (i + 1) (d :: cs) := h.tail
    obtain ⟨-, -, hs, hhs, hsize, hdrop⟩ := htail.exists_getElem
    have hskip : literalEnd bs (i + 2) = literalEnd bs (i + 1 + d.utf8Size) := by
      rw [literalEnd_of_trail hhs hdrop, hsize]
      congr 1
      omega
    rw [literalEnd, dif_pos hi, if_pos ((hb _ (by decide)).2 rfl), hskip, ih htail.tail,
      literalLength, Nat.add_comm 2, List.take_succ_cons, List.take_succ_cons]
    simp only [Text.utf8Length_cons, hslash]
    omega
  | case3 cs ih =>
    obtain ⟨hi, hb, -⟩ := h.exists_getElem
    have htail : Remains bs (i + 1) ('\'' :: cs) := h.tail
    have hrest : Remains bs (i + 2) cs := htail.tail
    rw [literalEnd, dif_pos hi, if_neg fun he => absurd ((hb _ (by decide)).1 he) (by decide),
      if_pos ((hb _ (by decide)).2 rfl), if_pos ((htail.getElem?_eq (by decide)).2 rfl),
      ih hrest, literalLength, Nat.add_comm 2, List.take_succ_cons, List.take_succ_cons]
    simp only [Text.utf8Length_cons, hquote]
    omega
  | case4 cs hq =>
    obtain ⟨hi, hb, -⟩ := h.exists_getElem
    have htail : Remains bs (i + 1) cs := h.tail
    have hnext : ¬bs[i + 1]? = some '\''.toUInt8 := by
      rw [htail.getElem?_eq (by decide)]
      intro he
      obtain ⟨t, rfl⟩ := List.head?_eq_some_iff.1 he
      exact hq t rfl
    rw [literalEnd, dif_pos hi, if_neg fun he => absurd ((hb _ (by decide)).1 he) (by decide),
      if_pos ((hb _ (by decide)).2 rfl), if_neg hnext, literalLength]
    · rfl
    · exact hq
  | case5 c cs hs hq hq' ih =>
    obtain ⟨hi, hb, hs', hhs, hsize, hdrop⟩ := h.exists_getElem
    by_cases hc : c = '\\'
    · obtain rfl : cs = [] := by
        cases cs with
        | nil => rfl
        | cons d cs => exact (hs d cs hc rfl).elim
      subst hc
      have hlen : bs.length = i + 1 := h.length_eq
      rw [literalEnd, dif_pos hi, if_pos ((hb _ (by decide)).2 rfl), literalEnd,
        dif_neg (by omega), hlen]
      rfl
    · rw [literalEnd, dif_pos hi, if_neg fun he => hc ((hb _ (by decide)).1 he),
        if_neg fun he => hq' ((hb _ (by decide)).1 he), literalEnd_of_trail hhs hdrop,
        Nat.add_assoc, Nat.add_comm 1, ← hsize, ih h.tail, literalLength_cons hc hq',
        Nat.add_comm 1, List.take_succ_cons, Text.utf8Length_cons, Nat.add_assoc]

private theorem skipPast_eq (hr : Remains bs i r) (hm : ∀ d ∈ c :: mark, d.toNat < 128) :
    skipPast bs i (c :: mark) = i + Text.utf8Length (r.take (lengthPast (c :: mark) r)) := by
  rw [← Text.position?_bytes hm, skipPast, Nat.min_eq_left hr.le, hr.drop]
  cases Text.position? (bytes (c :: mark)) (bytes r) with
  | none => exact hr.length_eq
  | some n => exact Nat.add_assoc _ _ _

private theorem skipPast_succ (h : Remains bs i (c :: r)) (hc : c.utf8Size = 1)
    (hm : ∀ d ∈ q :: mark, d.toNat < 128) :
    skipPast bs (i + 1) (q :: mark) =
      i + Text.utf8Length ((c :: r).take (1 + lengthPast (q :: mark) r)) := by
  have htail := h.tail
  rw [hc] at htail
  rw [skipPast_eq htail hm, Nat.add_comm 1 (lengthPast _ _), List.take_succ_cons,
    Text.utf8Length_cons, hc, Nat.add_assoc]

private theorem skipPast_add_two (h : Remains bs i (c :: d :: r)) (hc : c.utf8Size = 1)
    (hd : d.utf8Size = 1) (hm : ∀ d ∈ q :: mark, d.toNat < 128) :
    skipPast bs (i + 2) (q :: mark) =
      i + Text.utf8Length ((c :: d :: r).take (2 + lengthPast (q :: mark) r)) := by
  have htail := h.tail
  rw [hc] at htail
  rw [skipPast_succ htail hd hm, show 2 = 1 + 1 from rfl, Nat.add_assoc 1 1, Nat.add_comm 1 (1 + _),
    List.take_succ_cons, Text.utf8Length_cons, hc, Nat.add_assoc]

private theorem unitEnd_of_trail (hb : 128 ≤ b) : unitEnd bs i b = i + 1 := by
  have hne : ∀ d : Char, d.toNat < 128 → b ≠ d.toUInt8 := fun d hd => Text.ne_toUInt8 hd hb
  rw [unitEnd, if_neg (hne _ (by decide)), if_neg (hne _ (by decide)),
    if_neg fun he => hne _ (by decide) he.1, if_neg fun he => hne _ (by decide) he.1]

private theorem scan?_of_trail {start : Nat} (hhs : ∀ x ∈ hs, 128 ≤ x)
    (h : (bytes t).drop i = hs ++ rest) : scan? t start i = scan? t start (i + hs.length) := by
  induction hs generalizing i with
  | nil => rfl
  | cons x hs ih =>
    obtain ⟨hx, htrail⟩ := List.forall_mem_cons.1 hhs
    obtain ⟨hi, rfl, hdrop⟩ := drop_succ h
    rw [scan?, dif_pos hi, if_neg (Text.ne_toUInt8 (by decide) hx), unitEnd_of_trail hx,
      ih htrail hdrop, List.length_cons, Nat.add_right_comm, Nat.add_assoc]

private theorem unitLength_cons (c : Char) (r : Text) :
    unitLength (c :: r) =
      if c = '\x60' then 1 + lengthPast ['\x60'] r
      else if c = '\"' then 1 + lengthPast ['\"'] r
      else if c = '-' ∧ r.head? = some '-' then 2 + lengthPast ['\n'] r.tail
      else if c = '/' ∧ r.head? = some '*' then 2 + lengthPast ['*', '/'] r.tail
      else 1 := by
  unfold unitLength
  split
  · next he => cases he; rfl
  · next he => cases he; rfl
  · next he => cases he; rfl
  · next he => cases he; rfl
  · next htick hdouble hline hblock =>
    rw [if_neg, if_neg, if_neg, if_neg]
    · rintro ⟨rfl, hd⟩
      obtain ⟨u, rfl⟩ := List.head?_eq_some_iff.1 hd
      exact hblock u rfl
    · rintro ⟨rfl, hd⟩
      obtain ⟨u, rfl⟩ := List.head?_eq_some_iff.1 hd
      exact hline u rfl
    · exact fun he => hdouble r (by rw [he])
    · exact fun he => htick r (by rw [he])

/-- A quoted name, a comment, or one byte of a character. -/
theorem unitEnd_eq (h : Remains bs i (c :: r)) :
    ∃ hi : i < bs.length,
      unitEnd bs i bs[i] = i + Text.utf8Length ((c :: r).take (unitLength (c :: r))) ∨
        unitEnd bs i bs[i] = i + 1 ∧ unitLength (c :: r) = 1 := by
  obtain ⟨hi, hb, -⟩ := h.exists_getElem
  refine ⟨hi, ?_⟩
  generalize bs[i] = b at hb
  have htail : ∀ {d : Char}, c = d → d.utf8Size = 1 → Remains bs (i + 1) r := by
    rintro d rfl hd
    rw [← hd]
    exact h.tail
  have hpair : ∀ {d e : Char}, d.toNat < 128 → e.toNat < 128 → d.utf8Size = 1 →
      (b = d.toUInt8 ∧ bs[i + 1]? = some e.toUInt8 ↔ c = d ∧ r.head? = some e) := by
    intro d e hd he hsize
    rw [hb d hd]
    exact and_congr_right fun hc => (htail hc hsize).getElem?_eq he
  simp only [unitEnd, unitLength_cons, hb '\x60' (by decide), hb '\"' (by decide),
    hpair (d := '-') (e := '-') (by decide) (by decide) rfl,
    hpair (d := '/') (e := '*') (by decide) (by decide) rfl]
  split_ifs with htick hdouble hline hblock
  · exact .inl (skipPast_succ h (htick ▸ rfl) (by simp))
  · exact .inl (skipPast_succ h (hdouble ▸ rfl) (by simp))
  · obtain ⟨u, rfl⟩ := List.head?_eq_some_iff.1 hline.2
    exact .inl (skipPast_add_two h (hline.1 ▸ rfl) rfl (by simp))
  · obtain ⟨u, rfl⟩ := List.head?_eq_some_iff.1 hblock.2
    exact .inl (skipPast_add_two h (hblock.1 ▸ rfl) rfl (by simp))
  · exact .inr ⟨rfl, rfl⟩

/-- The scan goes on past the unit of code that the text begins with. -/
theorem scan?_unit {start : Nat} (h : Remains (bytes t) i (c :: r)) (hc : c ≠ '\'') :
    scan? t start i =
      scan? t start (i + Text.utf8Length ((c :: r).take (unitLength (c :: r)))) := by
  obtain ⟨hi, hb, hs, hhs, hsize, hdrop⟩ := h.exists_getElem
  obtain ⟨_, hunit⟩ := unitEnd_eq h
  rw [scan?, dif_pos hi, if_neg fun he => hc ((hb _ (by decide)).1 he)]
  rcases hunit with hunit | ⟨hunit, hone⟩
  · rw [hunit]
  · rw [hunit, scan?_of_trail hhs hdrop, hone, Nat.add_assoc, Nat.add_comm 1, ← hsize]
    simp

/-- Code in front of a script goes into its first segment. -/
def prepend (u : Text) (ss : List Segment) : List Segment :=
  ss.modifyHead fun s => { s with text := u ++ s.text }

theorem exists_split (t : Text) : ∃ u ss, split t = ⟨false, u⟩ :: ss := by
  cases h : t.drop (codeLength t) with
  | nil => exact ⟨_, _, split_of_drop_nil h⟩
  | cons c cs => exact ⟨_, _, split_of_drop_cons h⟩

theorem Inert.split {u : Text} (h : Inert u r) : split (u ++ r) = prepend u (split r) := by
  have htake : (u ++ r).take (codeLength (u ++ r)) = u ++ r.take (codeLength r) := by
    rw [show codeLength (u ++ r) = _ from h, List.take_length_add_append]
  have hdrop : (u ++ r).drop (codeLength (u ++ r)) = r.drop (codeLength r) := by
    rw [show codeLength (u ++ r) = _ from h, List.drop_length_add_append]
  cases hr : r.drop (codeLength r) with
  | nil =>
    rw [split_of_drop_nil (hdrop.trans hr), split_of_drop_nil hr, htake]
    rfl
  | cons c cs =>
    rw [split_of_drop_cons (hdrop.trans hr), split_of_drop_cons hr, htake]
    rfl

private theorem lengthPast_le (mark t : Text) : lengthPast mark t ≤ t.length := by
  unfold lengthPast
  fun_induction Text.cutAt? mark t with
  | case1 h => simpa using h
  | case2 => simp
  | case3 c cs h => simpa using (List.isPrefixOf_iff_prefix.1 h).length_le
  | case4 c cs _ ih =>
    cases hcut : Text.cutAt? mark cs with
    | none => simp
    | some p =>
      rw [hcut] at ih
      simp only [Option.map_some, List.length_cons] at ih ⊢
      omega

private theorem unitLength_le (c : Char) (r : Text) : unitLength (c :: r) ≤ (c :: r).length := by
  rw [unitLength_cons, List.length_cons]
  split_ifs with _ _ hline hblock
  · have := lengthPast_le ['\x60'] r
    omega
  · have := lengthPast_le ['\"'] r
    omega
  · obtain ⟨u, rfl⟩ := List.head?_eq_some_iff.1 hline.2
    have := lengthPast_le ['\n'] u
    rw [List.length_cons, List.tail_cons]
    omega
  · obtain ⟨u, rfl⟩ := List.head?_eq_some_iff.1 hblock.2
    have := lengthPast_le ['*', '/'] u
    rw [List.length_cons, List.tail_cons]
    omega
  · omega

private theorem inert_unit (hc : c ≠ '\'') :
    Inert ((c :: r).take (unitLength (c :: r))) ((c :: r).drop (unitLength (c :: r))) := by
  rw [Inert, List.take_append_drop, codeLength_cons hc,
    List.length_take_of_le (unitLength_le c r)]

theorem split_nil : split [] = [⟨false, []⟩] := by
  rw [split_of_drop_nil List.drop_nil, List.take_nil]

theorem split_quote (cs : Text) :
    split ('\'' :: cs) = ⟨false, []⟩ :: ⟨true, '\'' :: cs.take (literalLength cs)⟩ ::
      split (cs.drop (literalLength cs)) := by
  have hlen : codeLength ('\'' :: cs) = 0 := by rw [codeLength, if_pos rfl]
  rw [@split_of_drop_cons '\'' _ cs (by rw [hlen]; rfl), hlen, List.take_zero]

private theorem prepend_nil_split (r : Text) : prepend [] (split r) = split r := by
  obtain ⟨u, ss, h⟩ := exists_split r
  rw [h]
  rfl

private theorem prepend_append (u v : Text) (ss : List Segment) :
    prepend (u ++ v) ss = prepend u (prepend v ss) := by
  cases ss with
  | nil => rfl
  | cons s ss => simp [prepend]

private theorem remains_append (u r : Text) : Remains (bytes (u ++ r)) (Text.utf8Length u) r where
  le := by
    rw [Text.length_bytes, Text.utf8Length_append]
    exact Nat.le_add_right _ _
  drop := by rw [Text.bytes_append, ← Text.length_bytes, List.drop_left]

/-- Where a literal begins, the scan cuts in front of it and behind it. -/
theorem scan?_quote {body rest : Text} (u code : Text) (hbody : r.take (literalLength r) = body)
    (hr : r = body ++ rest) (ht : t = u ++ code ++ '\'' :: body ++ rest) :
    scan? t (Text.utf8Length u) (Text.utf8Length (u ++ code)) =
      (scan? t (Text.utf8Length (u ++ code ++ '\'' :: body))
        (Text.utf8Length (u ++ code ++ '\'' :: body))).map
          fun ss => ⟨false, code⟩ :: ⟨true, '\'' :: body⟩ :: ss := by
  have hsource : t = u ++ code ++ '\'' :: r := by simp [ht, hr]
  have hbegin : Remains (bytes t) (Text.utf8Length (u ++ code)) ('\'' :: r) :=
    hsource ▸ remains_append _ _
  obtain ⟨hi, hb, -⟩ := hbegin.exists_getElem
  have hlast : literalEnd (bytes t) (Text.utf8Length (u ++ code) + 1) =
      Text.utf8Length (u ++ code ++ '\'' :: body) := by
    rw [Text.utf8Length_append (u ++ code), Text.utf8Length_cons, ← Nat.add_assoc, ← hbody]
    exact literalEnd_eq hbegin.tail
  have hcode : Text.slice? t (Text.utf8Length u) (Text.utf8Length (u ++ code)) = some code := by
    rw [hsource, Text.utf8Length_append]
    exact Text.slice?_append u code _
  have hliteral : Text.slice? t (Text.utf8Length (u ++ code))
      (Text.utf8Length (u ++ code ++ '\'' :: body)) = some ('\'' :: body) := by
    rw [ht, Text.utf8Length_append (u ++ code)]
    exact Text.slice?_append (u ++ code) ('\'' :: body) rest
  rw [scan?, dif_pos hi, if_pos ((hb _ (by decide)).2 rfl)]
  simp only [hlast, hcode, hliteral]
  exact Option.map_eq_bind.symm

/-- The scan by bytes finds the segments of what remains, with the code since the last cut. -/
theorem scan?_eq (u code r : Text) :
    scan? (u ++ code ++ r) (Text.utf8Length u) (Text.utf8Length (u ++ code)) =
      some (prepend code (split r)) := by
  induction hn : r.length using Nat.strongRecOn generalizing u code r with
  | ind n ih =>
    cases r with
    | nil =>
      have hend : (bytes (u ++ code ++ [])).length = Text.utf8Length (u ++ code) :=
        (remains_append (u ++ code) []).length_eq
      have hcode := Text.slice?_append u code []
      rw [← Text.utf8Length_append] at hcode
      rw [scan?, dif_neg (by omega), hend, hcode, split_nil]
      simp [prepend]
    | cons c r =>
      by_cases hc : c = '\''
      · subst hc
        rw [split_quote]
        have hlen : (r.drop (literalLength r)).length < n := by
          rw [← hn, List.length_cons, List.length_drop]
          omega
        have hr : r = r.take (literalLength r) ++ r.drop (literalLength r) :=
          (List.take_append_drop _ _).symm
        have hsource : u ++ code ++ '\'' :: r =
            u ++ code ++ '\'' :: r.take (literalLength r) ++ r.drop (literalLength r) := by
          simp
        have hscan := ih _ hlen (u ++ code ++ '\'' :: r.take (literalLength r)) [] _ rfl
        rw [List.append_nil, ← hsource, prepend_nil_split] at hscan
        rw [scan?_quote u code rfl hr hsource, hscan]
        simp [prepend]
      · have hunit := inert_unit (r := r) hc
        have hsplit := hunit.split
        have hlen : ((c :: r).drop (unitLength (c :: r))).length < n := by
          have := unitLength_pos (c :: r)
          rw [← hn, List.length_drop, List.length_cons]
          omega
        have hscan := ih _ hlen u (code ++ (c :: r).take (unitLength (c :: r))) _ rfl
        rw [List.take_append_drop] at hsplit
        rw [← List.append_assoc u, List.append_assoc (u ++ code), List.take_append_drop,
          Text.utf8Length_append (u ++ code), prepend_append, ← hsplit] at hscan
        rw [scan?_unit (remains_append (u ++ code) (c :: r)) hc, hscan]

/-- The scan by bytes finds the segments of every script, so no cut splits a character. -/
theorem scan?_zero (t : Text) : scan? t 0 0 = some (split t) := by
  simpa [prepend_nil_split] using scan?_eq [] [] t

end

end Segment

end TableDialects
