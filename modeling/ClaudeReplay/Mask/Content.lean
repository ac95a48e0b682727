import ClaudeReplay.Elide.Document
import ClaudeReplay.Lib.Overlay
import ClaudeReplay.Mask.Text

/-!
# ClaudeReplay.Mask.Content

Masking the content of a JSON string. No match begins inside an escape: the bytes of an
escape are hexadecimal digits or one of a few letters, the second byte of every shape is
neither, and at the last digit no word starts (`startsWord_digit`). So the content is
written over between its units alone (`mask_overlaid`) and stays a content
(`content_mask`).
-/

namespace ClaudeReplay.Mask

open Lib (quote backslash letterU Esc Decoder Separator Overlaid hexVal shortEscape)

/-! ## bytes -/

theorem isHex_eq (b : UInt8) : isHex b = (hexVal b).isSome := by
  simp only [isHex, isDigit, hexVal]
  split_ifs <;> simp_all

/-- Star is a text of one byte. -/
theorem star_plain : Decoder.plain.step starByte = some (.plain, [starByte]) := by decide

theorem star_ne : starByte ≠ backslash := by decide

/-- A digit is none of the other bytes. -/
theorem isHex_ne {b c : UInt8} (h : isHex b = true) (hc : isHex c = false) : b ≠ c := by
  rintro rfl
  rw [h] at hc
  contradiction

theorem isHex_word {b : UInt8} (h : isHex b = true) : keyChar b = true := by
  simp only [isHex, isDigit, keyChar, alnum, isUpper, isLower, Bool.or_eq_true, Bool.and_eq_true,
    decide_eq_true_eq, beq_iff_eq] at h ⊢
  grind

/-! ## inside an escape -/

section

variable {h₁ h₂ h₃ : UInt8} (hh₁ : isHex h₁ = true) (hh₂ : isHex h₂ = true)
  (hh₃ : isHex h₃ = true) (rest : List UInt8)
include hh₁ hh₂

theorem escEndsAt_digit : escEndsAt (h₂ :: h₁ :: letterU :: backslash :: rest) = false := by
  have hu : isHex letterU = false := by decide
  have hesc := isHex_ne hh₂ (show isHex 0x1B = false by decide)
  have hslash := isHex_ne hh₁ (show isHex backslash = false by decide)
  have hbefore : unicodeEscapeBefore (h₂ :: h₁ :: letterU :: backslash :: rest) = false := by
    unfold unicodeEscapeBefore
    split
    · next heq =>
      cases heq
      simp [hu]
    · rfl
  -- the spellings of ESC that are three and four letters long have a digit or an `x` there
  have hx : endsLower "x1b" (h₂ :: h₁ :: letterU :: backslash :: rest) = false := by
    have hascii : (ascii "x1b").reverse = [0x62, 0x31, 0x78] := by decide
    have hlower : ((0x78 : UInt8) == lower letterU) = false := by decide
    simp [endsLower, hascii, List.isPrefixOf, hlower]
  have hthree : endsWith "033" (h₂ :: h₁ :: letterU :: backslash :: rest) = false := by
    have hascii : (ascii "033").reverse = [0x33, 0x33, 0x30] := by decide
    have hletter : ((0x30 : UInt8) == letterU) = false := by decide
    simp [endsWith, hascii, List.isPrefixOf, hletter]
  have hfour : endsWith "0033" (h₂ :: h₁ :: letterU :: backslash :: rest) = false := by
    have hascii : (ascii "0033").reverse = [0x33, 0x33, 0x30, 0x30] := by decide
    have hletter : ((0x30 : UInt8) == letterU) = false := by decide
    simp [endsWith, hascii, List.isPrefixOf, hletter]
  simp [escEndsAt, hbefore, hesc, hslash, hx, hthree, hfour]

theorem afterTerminalCode_digit :
    afterTerminalCode (h₃ :: h₂ :: h₁ :: letterU :: backslash :: rest) = false := by
  have hopen : ∀ b, isHex b = true → ((b : UInt8) == 0x5B) = false := fun b hb =>
    beq_false_of_ne (isHex_ne hb (by decide))
  have hspace : (0x20 ≤ h₂ && h₂ ≤ 0x2F) = false := by
    simp only [isHex, isDigit, Bool.or_eq_true, Bool.and_eq_true, decide_eq_true_eq] at hh₂
    grind
  have hletter : ((0x20 : UInt8) ≤ letterU && letterU ≤ 0x3F) = false := by decide
  have hword : (letterU == (0x5B : UInt8)) = false := by decide
  have hshort : escEndsAt ((h₂ :: h₁ :: letterU :: backslash :: rest).dropWhile
      fun b => 0x20 ≤ b && b ≤ 0x2F) = false := by
    simp only [List.dropWhile, hspace, escEndsAt_digit hh₁ hh₂ rest]
  rw [afterTerminalCode]
  split
  · rfl
  · rw [hshort, Bool.and_false, Bool.or_false, Bool.and_eq_false_iff]
    right
    cases h2 : ((0x20 : UInt8) ≤ h₂ && h₂ ≤ 0x3F) with
    | false => simp only [List.dropWhile, h2, hopen h₂ hh₂, Bool.false_and]
    | true =>
      cases h1 : ((0x20 : UInt8) ≤ h₁ && h₁ ≤ 0x3F) with
      | false => simp only [List.dropWhile, h2, h1, hopen h₁ hh₁, Bool.false_and]
      | true => simp only [List.dropWhile, h2, h1, hletter, hword, Bool.false_and]

include hh₃

/-- **No word starts at the last digit of an escape.** -/
theorem startsWord_digit :
    startsWord (h₃ :: h₂ :: h₁ :: letterU :: backslash :: rest) = false := by
  have hslash := isHex_ne hh₂ (show isHex backslash = false by decide)
  have hdash := isHex_ne hh₃ (show isHex 0x2D = false by decide)
  have hbefore : unicodeEscapeBefore (h₃ :: h₂ :: h₁ :: letterU :: backslash :: rest) = false := by
    unfold unicodeEscapeBefore
    split
    · next heq =>
      cases heq
      simp [show (backslash == letterU) = false by decide]
    · rfl
  have hescape : afterEscape (h₃ :: h₂ :: h₁ :: letterU :: backslash :: rest) = false := by
    simp [afterEscape, hslash, hbefore]
  have hboundary : boundary (h₃ :: h₂ :: h₁ :: letterU :: backslash :: rest) = false := by
    rw [boundary, hescape, afterTerminalCode_digit hh₁ hh₂ rest, isHex_word hh₃]
    rfl
  rw [startsWord, hboundary]
  simp [hdash]

end

/-! ## where a match begins -/

/-- What comes before the last bytes of an escape. -/
theorem digits_before {before after : List UInt8} {n : Nat}
    (hformed : Esc.plain.formed (before.reverse ++ after) = true)
    (hrun : Esc.plain.run before.reverse = .hex n) :
    ∃ ds more, before = ds ++ letterU :: backslash :: more ∧ ds.length + n = 3 ∧
      ∀ d ∈ ds, isHex d = true := by
  induction before generalizing after n with
  | nil => contradiction
  | cons b before ih =>
    rw [List.reverse_cons, Esc.run_snoc] at hrun
    rw [List.reverse_cons, List.append_assoc] at hformed
    have hfits := (Esc.formed_cons.mp (Esc.formed_right hformed)).1
    obtain hhex | ⟨hslash, rfl, rfl⟩ := Esc.step_eq_hex hrun
    · obtain ⟨ds, more, rfl, hlen, hds⟩ := ih hformed hhex
      rw [hhex, Esc.fits, ← isHex_eq] at hfits
      refine ⟨b :: ds, more, rfl, ?_, List.forall_mem_cons.mpr ⟨hfits, hds⟩⟩
      rw [List.length_cons]
      omega
    · cases before with
      | nil => contradiction
      | cons c more =>
        rw [List.reverse_cons, Esc.run_snoc] at hslash
        obtain ⟨-, rfl⟩ := Esc.step_eq_slash hslash
        exact ⟨[], more, rfl, rfl, by simp⟩

/-- The first two bytes of a shape: no escape goes on with the first, or none with the
second. -/
def opens : List UInt8 → Bool
  | a :: b :: _ => a != letterU && (shortEscape a).isNone && !isHex b
  | _ => false

/-- **A shape that starts a word begins between units.** -/
theorem plain_of_opens {before after start : List UInt8}
    (hformed : Esc.plain.formed (before.reverse ++ after) = true) (hopens : opens start = true)
    (hstart : start <+: after) (hword : startsWord before = true) :
    Esc.plain.run before.reverse = .plain := by
  obtain ⟨rest, rfl⟩ := hstart
  have hrest := Esc.formed_right hformed
  cases hrun : Esc.plain.run before.reverse with
  | plain => rfl
  | slash =>
    rw [hrun] at hrest
    cases start with
    | nil => contradiction
    | cons a start =>
      have hfits := (Esc.formed_cons.mp hrest).1
      cases start with
      | nil => contradiction
      | cons b start =>
        simp only [opens, Bool.and_eq_true, bne_iff_ne, ne_eq, Option.isNone_iff_eq_none] at hopens
        simp [Esc.fits, hopens.1.1, hopens.1.2] at hfits
  | hex n =>
    cases n with
    | zero =>
      -- the last digit
      obtain ⟨ds, more, rfl, hlen, hds⟩ := digits_before hformed hrun
      obtain ⟨h₃, h₂, h₁, rfl⟩ := List.length_eq_three.mp hlen
      have hfalse := startsWord_digit (hds h₁ (by simp)) (hds h₂ (by simp)) (hds h₃ (by simp)) more
      rw [List.cons_append, List.cons_append, List.cons_append, List.nil_append, hfalse] at hword
      contradiction
    | succ n =>
      rw [hrun] at hrest
      cases start with
      | nil => contradiction
      | cons a start =>
        cases start with
        | nil => contradiction
        | cons b start =>
          rw [List.cons_append, List.cons_append, Esc.formed_cons, Esc.formed_cons] at hrest
          have hhex : isHex b = true := (isHex_eq b).trans hrest.2.1
          simp [opens, hhex] at hopens

theorem tokens_open {rule : TokenRule} (h : rule ∈ tokens) : opens rule.start = true := by
  have hall : (tokens.all fun rule => opens rule.start) = true := by decide +kernel
  exact List.all_eq_true.mp hall rule h

/-- A token begins between units. -/
theorem plain_of_tokenAt {before after : List UInt8} {stop : Nat}
    (hformed : Esc.plain.formed (before.reverse ++ after) = true)
    (h : tokenAt before after = some stop) : Esc.plain.run before.reverse = .plain := by
  obtain ⟨rule, hrule, hend⟩ := List.exists_of_findSome?_eq_some h
  unfold TokenRule.endAt at hend
  split at hend
  · contradiction
  · next hstart =>
    simp only [Bool.or_eq_true, Bool.not_eq_true', not_or, Bool.not_eq_false] at hstart
    exact plain_of_opens hformed (tokens_open hrule) (List.isPrefixOf_iff_prefix.mp hstart.1)
      hstart.2

/-- A web token begins between units. -/
theorem plain_of_jwtAt {before after : List UInt8} {stop : Nat}
    (hformed : Esc.plain.formed (before.reverse ++ after) = true)
    (h : jwtAt before after = some stop) : Esc.plain.run before.reverse = .plain := by
  unfold jwtAt at h
  split at h
  · contradiction
  · next hstart =>
    simp only [Bool.or_eq_true, Bool.not_eq_true', not_or, Bool.not_eq_false] at hstart
    exact plain_of_opens hformed (by decide) (List.isPrefixOf_iff_prefix.mp hstart.1) hstart.2

theorem lower_space {b : UInt8} (h : lower b = 0x20) : b = 0x20 := by
  unfold lower isUpper at h
  split at h
  · next hupper =>
    simp only [Bool.and_eq_true, decide_eq_true_eq] at hupper
    grind
  · exact h

/-- A credential begins behind a space. -/
theorem plain_of_bearerAt {before after : List UInt8} {start stop : Nat}
    (hformed : Esc.plain.formed (before.reverse ++ after) = true)
    (h : bearerAt before after = some (start, stop)) :
    Esc.plain.run (before.reverse ++ after.take start) = .plain := by
  unfold bearerAt at h
  split at h
  · contradiction
  · next hstart =>
    simp only [Bool.or_eq_true, Bool.not_eq_true', not_or, Bool.not_eq_false] at hstart
    have hstart7 : start = 7 := by
      simp only at h
      split at h <;> cases h
      rfl
    obtain ⟨rest, hrest⟩ := List.isPrefixOf_iff_prefix.mp hstart.1
    have hword : ascii "bearer " = ascii "bearer" ++ [0x20] := by decide
    obtain ⟨xs, ys, rfl, hxs, -⟩ := List.append_eq_map_iff.mp hrest
    rw [hword] at hxs
    obtain ⟨word, space, rfl, hsix, hspace⟩ := List.map_eq_append_iff.mp hxs
    obtain ⟨b, hb, hlower⟩ := List.map_eq_singleton_iff.mp hspace
    have hlen : word.length = 6 := by
      have hmap := congrArg List.length hsix
      rwa [List.length_map] at hmap
    subst hb
    rw [lower_space hlower, List.append_assoc, List.singleton_append] at hformed ⊢
    have htake : (word ++ 0x20 :: ys).take start = word ++ [0x20] := by
      rw [hstart7, List.take_append, hlen]
      simp [hlen]
    rw [htake, ← List.append_assoc]
    rw [← List.append_assoc] at hformed
    exact Separator.run (by decide) hformed

/-- The password is what stands behind a colon. -/
theorem urlPasswordAt_range {after : List UInt8} {start stop : Nat}
    (h : urlPasswordAt after = some (start, stop)) :
    ∃ colon n, start = colon + 1 ∧ stop = start + n ∧ (after.drop colon).head? = some 0x3A := by
  unfold urlPasswordAt at h
  split at h
  · contradiction
  · split at h
    · contradiction
    · next user _ =>
      split at h
      · contradiction
      · next huser =>
        simp only [Bool.or_eq_true, bne_iff_ne, ne_eq, not_or, not_not] at huser
        simp only at h
        split at h
        · contradiction
        · next n _ =>
          split at h <;> cases h
          exact ⟨3 + user, n, rfl, rfl, huser.2⟩

/-- A password begins behind a colon. -/
theorem plain_of_urlPasswordAt {before after : List UInt8} {start stop : Nat}
    (hformed : Esc.plain.formed (before.reverse ++ after) = true)
    (h : urlPasswordAt after = some (start, stop)) :
    Esc.plain.run (before.reverse ++ after.take start) = .plain := by
  obtain ⟨colon, n, rfl, -, hcolon⟩ := urlPasswordAt_range h
  obtain ⟨rest, hrest⟩ := List.head?_eq_some_iff.mp hcolon
  have hsplit : after = after.take colon ++ 0x3A :: rest := by
    rw [← hrest, List.take_append_drop]
  have htake : after.take (colon + 1) = after.take colon ++ [0x3A] := by
    rw [List.take_add_one, ← List.head?_drop, hcolon]
    rfl
  rw [htake, ← List.append_assoc]
  rw [hsplit, ← List.append_assoc] at hformed
  exact Separator.run (by decide) hformed

/-! ## starring -/

/-- What is left of the unit. -/
def left : Esc → List UInt8 → Nat
  | .plain, _ => 0
  | .slash, bs => if bs.head? = some letterU then 5 else 1
  | .hex n, _ => n + 1

/-- An escape that is complete is recognized. -/
theorem unicodeEscapeAt_formed {bs : List UInt8} (h : Esc.slash.formed bs = true) :
    unicodeEscapeAt (backslash :: bs) = decide (bs.head? = some letterU) := by
  cases bs with
  | nil => contradiction
  | cons u bs =>
    by_cases hu : u = letterU
    · subst hu
      match bs, h with
      | [], h | [_], h | [_, _], h | [_, _, _], h => simp [Esc.formed, Esc.step] at h
      | h₁ :: h₂ :: h₃ :: h₄ :: rest, h =>
        have hdigits : (isHex h₁ && (isHex h₂ && (isHex h₃ && isHex h₄))) = true := by
          simp only [isHex_eq, Bool.and_eq_true]
          simp only [Esc.formed, Bool.and_eq_true] at h
          exact ⟨h.2.1, h.2.2.1, h.2.2.2.1, h.2.2.2.2.1⟩
        simpa [unicodeEscapeAt, Bool.and_assoc] using hdigits
    · have hfalse : (u == letterU) = false := beq_false_of_ne hu
      unfold unicodeEscapeAt
      split
      · next heq =>
        cases heq
        simp [hu]
      · simp [hu]

/-- **Starring writes over bytes between units.** -/
theorem star_overlaid {e : Esc} {bs : List UInt8} (h : e.formed bs = true) (n : Nat) :
    Overlaid starByte e bs (star (left e bs) n bs) := by
  induction bs generalizing e n with
  | nil =>
    have hnil : star (left e []) n [] = [] := by cases n <;> cases left e [] <;> rfl
    rw [hnil]
    exact .nil
  | cons b bs ih =>
    have hrest := (Esc.formed_cons.mp h).2
    have hih := ih hrest (n - 1)
    cases n with
    | zero =>
      have hzero : star (left e (b :: bs)) 0 (b :: bs) = b :: bs := by
        cases left e (b :: bs) <;> rfl
      rw [hzero]
      exact .refl
    | succ n =>
      cases e with
      | plain =>
        rw [left, star]
        split
        · next hb =>
          obtain rfl : b = backslash := by simpa using hb
          have hslash : Esc.plain.step backslash = .slash := rfl
          rw [unicodeEscapeAt_formed hrest]
          refine .keep ?_
          rw [hslash] at hih ⊢
          simpa [left] using hih
        · next hb =>
          have hne : b ≠ backslash := by simpa using hb
          rw [Esc.plain_step hne] at hih
          split
          · next hhigh =>
            refine .keep ?_
            rw [Esc.plain_step hne]
            exact hih
          · next hlow => exact .cover hne (UInt8.not_le.mp hlow) hih
      | slash =>
        by_cases hu : b = letterU
        · subst hu
          exact .keep hih
        · have hplain : Esc.slash.step b = .plain := if_neg hu
          have hleft : left .slash (b :: bs) = 1 := by simp [left, hu]
          rw [hleft, star]
          refine .keep ?_
          rw [hplain] at hih ⊢
          exact hih
      | hex m =>
        rw [left, star]
        refine .keep ?_
        cases m with
        | zero => exact hih
        | succ m => exact hih

/-- From between units on. -/
theorem star_plain_overlaid {bs : List UInt8} (h : Esc.plain.formed bs = true) (n : Nat) :
    Overlaid starByte .plain bs (star 0 n bs) :=
  star_overlaid h n

/-- What is starred behind the first bytes. -/
theorem star_behind {e : Esc} {bs : List UInt8} {k : Nat} (hformed : e.formed bs = true)
    (hplain : e.run (bs.take k) = .plain) (n : Nat) :
    Overlaid starByte e bs (bs.take k ++ star 0 n (bs.drop k)) := by
  have hright : (e.run (bs.take k)).formed (bs.drop k) = true :=
    Esc.formed_right (by rwa [List.take_append_drop])
  rw [hplain] at hright
  conv => lhs; rw [← List.take_append_drop k bs]
  exact Overlaid.append_left (by rw [hplain]; exact star_plain_overlaid hright n)

/-! ## the scan -/

/-- **The scan writes over bytes between units.** -/
theorem scan_overlaid (fuel : Nat) {before after : List UInt8}
    (hformed : Esc.plain.formed (before.reverse ++ after) = true) :
    ∃ out, (scan fuel before after).1 = before.reverse ++ out ∧
      Overlaid starByte (Esc.plain.run before.reverse) after out := by
  induction fuel generalizing before after with
  | zero => exact ⟨after, rfl, .refl⟩
  | succ fuel ih =>
    cases after with
    | nil => exact ⟨[], (List.append_nil _).symm, .nil⟩
    | cons b bs =>
      -- a byte is passed over
      have hpass : ∃ out, (scan fuel (b :: before) bs).1 = before.reverse ++ out ∧
          Overlaid starByte (Esc.plain.run before.reverse) (b :: bs) out := by
        obtain ⟨out, hout, hover⟩ := @ih (b :: before) bs (by simpa using hformed)
        rw [List.reverse_cons, Esc.run_snoc] at hover
        exact ⟨b :: out, by rw [hout]; simp, .keep hover⟩
      -- a match is starred
      have hmatch : ∀ starred stop,
          Overlaid starByte (Esc.plain.run before.reverse) (b :: bs) starred →
          ∃ out, (scan fuel ((starred.take stop).reverse ++ before) (starred.drop stop)).1 =
              before.reverse ++ out ∧
            Overlaid starByte (Esc.plain.run before.reverse) (b :: bs) out := by
        intro starred stop hstarred
        have hall := (Overlaid.append_left hstarred).formed star_ne hformed
        obtain ⟨out, hout, hover⟩ := @ih ((starred.take stop).reverse ++ before)
          (starred.drop stop) (by simpa using hall)
        rw [List.reverse_append, List.reverse_reverse] at hout hover
        refine ⟨starred.take stop ++ out, by rw [hout, List.append_assoc], ?_⟩
        refine Overlaid.trans star_ne hstarred ?_
        rw [Esc.run_append] at hover
        conv => lhs; rw [← List.take_append_drop stop starred]
        exact Overlaid.append_left hover
      change ∃ out, (ite _ _ _ : List UInt8 × Nat).1 = _ ∧ _
      split
      · exact hpass
      · split
        · next stop hstop =>
          have hplain : Esc.plain.run before.reverse = .plain := by
            obtain h | ⟨-, h⟩ := Option.or_eq_some_iff.mp hstop
            · exact plain_of_tokenAt hformed h
            · exact plain_of_jwtAt hformed h
          have hright := Esc.formed_right hformed
          rw [hplain] at hright
          refine hmatch _ stop ?_
          rw [hplain]
          exact star_plain_overlaid hright stop
        · split
          · next start stop hrange =>
            have hplain : Esc.plain.run (before.reverse ++ (b :: bs).take start) = .plain := by
              obtain h | ⟨-, h⟩ := Option.or_eq_some_iff.mp hrange
              · exact plain_of_bearerAt hformed h
              · exact plain_of_urlPasswordAt hformed h
            rw [Esc.run_append] at hplain
            exact hmatch _ stop (star_behind (Esc.formed_right hformed) hplain (stop - start))
          · exact hpass

/-! ## private keys -/

/-- The lines of a private key stand between units. -/
theorem run_line {line xs ys : List UInt8} (hline : line ∈ [keyBegin, keyHeader, keyEnd])
    (hformed : Esc.plain.formed (xs ++ line ++ ys) = true) :
    Esc.plain.run xs = .plain ∧ Esc.plain.run (xs ++ line) = .plain := by
  have hall : ([keyBegin, keyHeader, keyEnd].all fun line =>
      line.head?.any (fun b => decide (Separator b)) && !line.tail.contains backslash) = true := by
    decide
  have hone := List.all_eq_true.mp hall line hline
  cases line with
  | nil => contradiction
  | cons b bs =>
    simp only [List.head?_cons, Option.any_some, List.tail_cons, Bool.and_eq_true, decide_eq_true_eq,
      Bool.not_eq_true', List.contains_eq_mem, decide_eq_false_iff_not] at hone
    exact hone.1.run_text hone.2 hformed

/-- A header that is found in a window stands in the text. -/
theorem header_split {bs header tail : List UInt8} {n : Nat}
    (h : Lib.splitAt? keyHeader (bs.take n) = some (header, tail)) :
    bs = header ++ keyHeader ++ bs.drop (header.length + keyHeader.length) := by
  have hwindow := Lib.splitAt?_eq_some h
  have hprefix : header ++ keyHeader <+: bs :=
    List.IsPrefix.trans ⟨tail, hwindow.symm⟩ (List.take_prefix n bs)
  obtain ⟨rest, rfl⟩ := hprefix
  rw [← List.length_append, List.drop_left]

/-- **Starring the bodies of private keys writes over bytes between units.** -/
theorem maskPrivateKeys_overlaid (fuel : Nat) {bs : List UInt8}
    (hformed : Esc.plain.formed bs = true) :
    Overlaid starByte .plain bs (maskPrivateKeys fuel bs).1 := by
  induction fuel generalizing bs with
  | zero => exact .refl
  | succ fuel ih =>
    unfold maskPrivateKeys
    split
    · exact .refl
    · next text rest hbegin =>
      obtain rfl := Lib.splitAt?_eq_some hbegin
      obtain ⟨htext, hopen⟩ := run_line (by simp) hformed
      have hrest := Esc.formed_right hformed
      rw [hopen] at hrest
      have hskip : Overlaid starByte .plain (text ++ keyBegin ++ rest)
          (text ++ keyBegin ++ (maskPrivateKeys fuel rest).1) :=
        Overlaid.append_left (by rw [hopen]; exact ih hrest)
      split
      · exact hskip
      · next header tail hheader =>
        split
        · exact hskip
        · simp only
          split
          · exact .refl
          · next key after hend =>
            have hline := header_split hheader
            generalize (keyBegin ++ rest).drop (header.length + keyHeader.length) = body
              at hend hline
            obtain rfl := Lib.splitAt?_eq_some hend
            -- the key stands between its lines
            have hkeys : text ++ keyBegin ++ rest =
                (text ++ header) ++ keyHeader ++ (key ++ keyEnd ++ after) := by
              rw [List.append_assoc, hline]
              simp only [List.append_assoc]
            rw [hkeys] at hformed ⊢
            obtain ⟨-, hheader⟩ := run_line (by simp) hformed
            have hbody := Esc.formed_right hformed
            rw [hheader] at hbody
            obtain ⟨hkey, hend⟩ := run_line (by simp) hbody
            have hafter := Esc.formed_right hbody
            rw [hend] at hafter
            have hstar := (star_plain_overlaid hbody key.length).take key.length
            rw [List.append_assoc key, List.take_left] at hstar
            rw [Esc.run_append, hkey] at hend
            have hfooter : Overlaid starByte .plain (keyEnd ++ after)
                (keyEnd ++ (maskPrivateKeys fuel after).1) :=
              Overlaid.append_left (by rw [hend]; exact ih hafter)
            have hinner := hstar.append (by rw [hkey]; exact hfooter)
            have houter := @Overlaid.append_left _ _ (text ++ header ++ keyHeader) _ _
              (by rw [hheader]; exact hinner)
            simpa only [List.append_assoc] using houter

/-- **Masking writes over bytes between units.** -/
theorem maskTextBytes_overlaid {bs : List UInt8} (hformed : Esc.plain.formed bs = true) :
    Overlaid starByte .plain bs (maskTextBytes bs).1 := by
  have hkeys := maskPrivateKeys_overlaid bs.length hformed
  obtain ⟨out, hout, hscan⟩ := @scan_overlaid (maskPrivateKeys bs.length bs).1.length [] _
    (hkeys.formed star_ne hformed)
  rw [maskTextBytes, hout]
  exact hkeys.trans star_ne hscan

theorem maskString_overlaid {bs : List UInt8} (h : Content bs) :
    Overlaid starByte .plain bs (maskString bs).1 := by
  rw [maskString]
  split
  · exact .refl
  · exact maskTextBytes_overlaid (Decoder.reach_formed ((Decoder.run_isSome .plain bs).mp h.1))

/-- **A content that is masked is a content.** -/
theorem content_overlaid {xs ys : List UInt8} (h : Content xs)
    (hover : Overlaid starByte .plain xs ys) : Content ys := by
  constructor
  · exact (Decoder.run_isSome .plain ys).mpr
      (Overlaid.reach star_plain hover ((Decoder.run_isSome .plain xs).mp h.1))
  · exact hover.validFrom (by decide) trivial h.2

/-! ## what is found -/

/-- A secret: its length, and the text from it on. -/
abbrev Secret := Nat × List UInt8

/-- Nothing of the secret is left to star. -/
def starred (s : Secret) : Bool := star 0 s.1 s.2 == s.2

/-- The bodies of the private keys. -/
def keyBodies : Nat → List UInt8 → List Secret
  | 0, _ => []
  | fuel + 1, bs =>
    match Lib.splitAt? keyBegin bs with
    | none => []
    | some (_, rest) =>
      match Lib.splitAt? keyHeader ((keyBegin ++ rest).take (64 + keyHeader.length)) with
      | none => keyBodies fuel rest
      | some (header, _) =>
        if header.contains 0x0A then keyBodies fuel rest
        else
          let body := (keyBegin ++ rest).drop (header.length + keyHeader.length)
          match Lib.splitAt? keyEnd body with
          | none => []
          | some (key, after) => (key.length, body) :: keyBodies fuel after

/-- Where the secret stands that begins at the position, and where the pass goes on. -/
def secretAt (before after : List UInt8) : Option (Nat × Nat) :=
  (((tokenAt before after).or (jwtAt before after)).map fun stop => (0, stop)).or
    ((bearerAt before after).or (urlPasswordAt after))

/-- The secrets of a text that is passed over as it is. -/
def secrets : Nat → (before after : List UInt8) → List Secret
  | 0, _, _ => []
  | _, _, [] => []
  | fuel + 1, before, b :: bs =>
    match if mayStart b then secretAt before (b :: bs) else none with
    | some (start, stop) =>
      (stop - start, (b :: bs).drop start) ::
        secrets fuel (((b :: bs).take stop).reverse ++ before) ((b :: bs).drop stop)
    | none => secrets fuel (b :: before) bs

/-- What is found in a text. -/
def finds (bs : List UInt8) : List Secret := keyBodies bs.length bs ++ secrets bs.length [] bs

/-- What starring leaves behind the secret. -/
theorem star_drop (skip n : Nat) (bs : List UInt8) : (star skip n bs).drop n = bs.drop n := by
  induction bs generalizing skip n with
  | nil => cases n <;> cases skip <;> rfl
  | cons b bs ih =>
    cases n with
    | zero => cases skip <;> rfl
    | succ n =>
      cases skip with
      | succ skip => exact ih skip n
      | zero =>
        rw [star]
        split
        · exact ih _ n
        · split <;> exact ih 0 n

theorem star_length (skip n : Nat) (bs : List UInt8) : (star skip n bs).length = bs.length := by
  induction bs generalizing skip n with
  | nil => cases n <;> cases skip <;> rfl
  | cons b bs ih =>
    cases n with
    | zero => cases skip <;> rfl
    | succ n =>
      cases skip with
      | succ skip => simp [star, ih]
      | zero =>
        rw [star]
        split
        · simp [ih]
        · split <;> simp [ih]

/-- The text with the secret starred. -/
def starSecret (bs : List UInt8) (start stop : Nat) : List UInt8 :=
  bs.take start ++ star 0 (stop - start) (bs.drop start)

theorem starSecret_eq_iff (bs : List UInt8) (start stop : Nat) :
    starSecret bs start stop = bs ↔ starred (stop - start, bs.drop start) = true := by
  rw [starSecret, starred, beq_iff_eq]
  conv => lhs; rhs; rw [← List.take_append_drop start bs]
  exact List.append_right_inj (bs.take start)

theorem starSecret_length (bs : List UInt8) (start stop : Nat) :
    (starSecret bs start stop).length = bs.length := by
  simp only [starSecret, List.length_append, star_length, List.length_take, List.length_drop]
  omega

theorem starSecret_drop {bs : List UInt8} {start stop : Nat} (h : start ≤ stop) :
    (starSecret bs start stop).drop stop = bs.drop stop := by
  rw [starSecret, List.drop_append, List.length_take]
  by_cases hlen : start ≤ bs.length
  · have hleft : (bs.take start).drop stop = [] :=
      List.drop_eq_nil_of_le (by rw [List.length_take]; omega)
    rw [hleft, Nat.min_eq_left hlen, star_drop, List.drop_drop, List.nil_append]
    congr 1
    omega
  · have hnil : bs.drop start = [] := List.drop_eq_nil_of_le (by omega)
    have hstar : star 0 (stop - start) [] = [] := by cases stop - start <;> rfl
    rw [hnil, hstar, List.drop_nil, List.append_nil, List.take_of_length_le (by omega)]

/-- The pass at one byte. -/
theorem scan_cons (fuel : Nat) (before : List UInt8) (b : UInt8) (bs : List UInt8) :
    (scan (fuel + 1) before (b :: bs)).1 =
      match if mayStart b then secretAt before (b :: bs) else none with
      | some (start, stop) =>
        (scan fuel (((starSecret (b :: bs) start stop).take stop).reverse ++ before)
          ((starSecret (b :: bs) start stop).drop stop)).1
      | none => (scan fuel (b :: before) bs).1 := by
  change (ite _ _ _ : List UInt8 × Nat).1 = _
  rw [secretAt]
  cases mayStart b with
  | false => rfl
  | true =>
    cases (tokenAt before (b :: bs)).or (jwtAt before (b :: bs)) with
    | some stop => simp [starSecret]
    | none =>
      cases (bearerAt before (b :: bs)).or (urlPasswordAt (b :: bs)) with
      | some range => rfl
      | none => rfl

/-- What the pass has come by it leaves. -/
theorem scan_append (fuel : Nat) (before after : List UInt8) :
    ∃ out, (scan fuel before after).1 = before.reverse ++ out := by
  induction fuel generalizing before after with
  | zero => exact ⟨after, rfl⟩
  | succ fuel ih =>
    cases after with
    | nil => exact ⟨[], (List.append_nil _).symm⟩
    | cons b bs =>
      rw [scan_cons]
      split
      · next start stop _ =>
        obtain ⟨out, hout⟩ := ih (((starSecret (b :: bs) start stop).take stop).reverse ++ before)
          ((starSecret (b :: bs) start stop).drop stop)
        exact ⟨(starSecret (b :: bs) start stop).take stop ++ out, by simp [hout]⟩
      · obtain ⟨out, hout⟩ := ih (b :: before) bs
        exact ⟨b :: out, by simp [hout]⟩

/-- A secret ends behind its beginning. -/
theorem secretAt_le {before after : List UInt8} {start stop : Nat}
    (h : secretAt before after = some (start, stop)) : start ≤ stop := by
  obtain h | ⟨-, h⟩ := Option.or_eq_some_iff.mp h
  · obtain ⟨n, -, heq⟩ := Option.map_eq_some_iff.mp h
    cases heq
    exact Nat.zero_le _
  · obtain h | ⟨-, h⟩ := Option.or_eq_some_iff.mp h
    · unfold bearerAt at h
      split at h
      · contradiction
      · simp only at h
        split at h <;> cases h
        exact Nat.le_add_right _ _
    · obtain ⟨colon, n, -, rfl, -⟩ := urlPasswordAt_range h
      exact Nat.le_add_right _ _

/-- **The pass changes nothing if all it finds is starred.** -/
theorem scan_eq_iff (fuel : Nat) (before after : List UInt8) :
    (scan fuel before after).1 = before.reverse ++ after ↔
      ∀ s ∈ secrets fuel before after, starred s = true := by
  induction fuel generalizing before after with
  | zero => exact iff_of_true rfl nofun
  | succ fuel ih =>
    cases after with
    | nil => exact iff_of_true (List.append_nil _).symm nofun
    | cons b bs =>
      rw [scan_cons, secrets]
      split
      · next start stop hsecret =>
        rw [List.forall_mem_cons, ← starSecret_eq_iff]
        constructor
        · intro h
          have hsame : starSecret (b :: bs) start stop = b :: bs := by
            obtain ⟨out, hout⟩ := scan_append fuel
              (((starSecret (b :: bs) start stop).take stop).reverse ++ before)
              ((starSecret (b :: bs) start stop).drop stop)
            have hle : start ≤ stop := by
              split at hsecret
              · exact secretAt_le hsecret
              · contradiction
            rw [hout, List.reverse_append, List.reverse_reverse, List.append_assoc,
              List.append_right_inj] at h
            have hsame := (List.append_inj (h.trans (List.take_append_drop stop _).symm)
              (by simp [starSecret_length])).1
            rw [← List.take_append_drop stop (starSecret (b :: bs) start stop),
              starSecret_drop hle, hsame, List.take_append_drop]
          rw [hsame] at h
          exact ⟨hsame, (ih _ _).mp (by simpa using h)⟩
        · rintro ⟨hsame, hrest⟩
          rw [hsame]
          simpa using (ih _ _).mpr hrest
      · simpa using ih (b :: before) bs

theorem starred_append_iff (xs ys : List UInt8) :
    starred (xs.length, xs ++ ys) = true ↔ (star 0 xs.length (xs ++ ys)).take xs.length = xs := by
  rw [starred, beq_iff_eq]
  constructor
  · intro h
    simp only at h
    rw [h, List.take_left]
  · intro h
    have hsplit := List.take_append_drop xs.length (star 0 xs.length (xs ++ ys))
    rw [star_drop, List.drop_left, h] at hsplit
    exact hsplit.symm

/-- **No private key is starred if all of them are.** -/
theorem maskPrivateKeys_eq_iff (fuel : Nat) (bs : List UInt8) :
    (maskPrivateKeys fuel bs).1 = bs ↔ ∀ s ∈ keyBodies fuel bs, starred s = true := by
  induction fuel generalizing bs with
  | zero => exact iff_of_true rfl nofun
  | succ fuel ih =>
    unfold maskPrivateKeys keyBodies
    cases hbegin : Lib.splitAt? keyBegin bs with
    | none => simp
    | some r =>
      obtain ⟨text, rest⟩ := r
      obtain rfl := Lib.splitAt?_eq_some hbegin
      have hskip : text ++ keyBegin ++ (maskPrivateKeys fuel rest).1 = text ++ keyBegin ++ rest ↔
          ∀ s ∈ keyBodies fuel rest, starred s = true := by
        rw [List.append_right_inj]
        exact ih rest
      simp only
      cases hheader : Lib.splitAt? keyHeader
          ((keyBegin ++ rest).take (64 + keyHeader.length)) with
      | none => exact hskip
      | some r =>
        obtain ⟨header, tail⟩ := r
        simp only
        split
        · exact hskip
        · have hline := header_split hheader
          generalize (keyBegin ++ rest).drop (header.length + keyHeader.length) = body at hline ⊢
          cases hend : Lib.splitAt? keyEnd body with
          | none => simp
          | some r =>
            obtain ⟨key, after⟩ := r
            obtain rfl := Lib.splitAt?_eq_some hend
            have hkeys : text ++ keyBegin ++ rest =
                text ++ header ++ keyHeader ++ key ++ keyEnd ++ after := by
              rw [List.append_assoc, hline]
              simp only [List.append_assoc]
            have hlen : ((star 0 key.length (key ++ (keyEnd ++ after))).take key.length).length =
                key.length := by
              simp [star_length]
            rw [hkeys]
            simp only [List.forall_mem_cons, ← ih after, List.append_assoc, List.append_right_inj]
            rw [starred_append_iff]
            constructor
            · intro h
              obtain ⟨hkey, hrest⟩ := List.append_inj h hlen
              exact ⟨hkey, List.append_cancel_left hrest⟩
            · rintro ⟨hkey, hrest⟩
              rw [hkey, hrest]

/-- **A content is left as it is if all that is found in it is starred.** -/
theorem maskTextBytes_eq_iff {bs : List UInt8} (hformed : Esc.plain.formed bs = true) :
    (maskTextBytes bs).1 = bs ↔ ∀ s ∈ finds bs, starred s = true := by
  have hkeys := maskPrivateKeys_overlaid bs.length hformed
  have hscan : ∀ text, (scan text.length [] text).1 = text ↔
      ∀ s ∈ secrets text.length [] text, starred s = true :=
    fun text => scan_eq_iff text.length [] text
  rw [finds, List.forall_mem_append, ← maskPrivateKeys_eq_iff, ← hscan]
  constructor
  · intro h
    obtain ⟨out, hout, hover⟩ := @scan_overlaid (maskPrivateKeys bs.length bs).1.length [] _
      (hkeys.formed star_ne hformed)
    have hback : out = bs := by
      rw [maskTextBytes, hout] at h
      exact h
    -- a byte is never put back
    have hsame := Overlaid.antisymm hkeys (hback ▸ hover)
    rw [maskTextBytes, hsame] at h
    exact ⟨hsame, h⟩
  · rintro ⟨hsame, h⟩
    rw [maskTextBytes, hsame]
    exact h

end ClaudeReplay.Mask
