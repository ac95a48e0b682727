import ClaudeReplay.Lib.Pieces
import ClaudeReplay.Text
import Mathlib.Algebra.Group.Nat.Defs
import Mathlib.Algebra.GroupWithZero.Nat
import Mathlib.Data.List.Induction

/-!
# ClaudeReplay.Monitor.Pairing

One-time pairing codes. A code is short, is drawn from an alphabet that can be read off a screen,
is good once and for five minutes; wrong attempts burn every code that is outstanding. The codes
are in a file of one line each: the command line mints into it, the server redeems from it.

A store that is well formed is read as it was written (`readStore_writeStore`), and a code that is
typed as it was shown is the code that was minted (`normalizeCode_displayCode`).
-/

namespace ClaudeReplay.Pairing

open Lib

/-- `PAIR_CODE_ALPHABET`: no 0/O, 1/I/L. -/
def pairCodeAlphabet : List Char := "ABCDEFGHJKMNPQRSTUVWXYZ23456789".toList

/-- `PAIR_CODE_LEN` -/
def pairCodeLen : Nat := 8

/-- `PAIR_CODE_TTL_SECS` -/
def pairCodeTtlSecs : Nat := 300

/-- `PAIR_CODE_TRIES` -/
def pairCodeTries : Nat := 5

/-- The codes that stand, each until when, and the failed attempts. -/
structure Store where
  codes : List (String × Nat) := []
  fails : Nat := 0
  deriving DecidableEq

/-! ## the file -/

/-- `str::split_whitespace` -/
def splitWhitespace (cs : List Char) : List (List Char) :=
  (stretches isWhitespace cs).filter fun word => !word.isEmpty

/-- `str::parse` of a number without sign below the limit. -/
def parseUnsigned (limit : Nat) (cs : List Char) : Option Nat :=
  let digits := if cs.head? = some '+' then cs.tail else cs
  if digits.isEmpty || !digits.all Char.isDigit then none
  else if Nat.ofDigitChars 10 digits 0 < limit then some (Nat.ofDigitChars 10 digits 0) else none

/-- One line of the file. -/
def readLine (store : Store) (line : List Char) : Store :=
  match splitWhitespace line with
  | kind :: code :: exp :: _ =>
    if kind = "code".toList then
      match parseUnsigned (2 ^ 64) exp with
      | some exp => { store with codes := store.codes ++ [(String.ofList code, exp)] }
      | none => store
    else store
  | [kind, n] =>
    if kind = "fails".toList then { store with fails := (parseUnsigned (2 ^ 32) n).getD 0 }
    else store
  | _ => store

def readStore (text : List Char) : Store := (strLines text).foldl readLine {}

def codeLine (entry : String × Nat) : List Char :=
  "code".toList ++ ' ' :: (entry.1.toList ++ ' ' :: (toString entry.2).toList)

def failsLine (fails : Nat) : List Char := "fails".toList ++ ' ' :: (toString fails).toList

def writeStore (store : Store) : List Char :=
  unlines '\n' (store.codes.map codeLine ++ [failsLine store.fails])

/-! ## codes -/

/-- A typed code, as it is compared. -/
def normalizeCode (typed : String) : String :=
  String.ofList ((typed.toList.filter Char.isAlphanum).map Char.toUpper)

/-- How a code is shown: two halves of four. -/
def displayCode (code : String) : String :=
  if code.utf8ByteSize = pairCodeLen then
    String.ofList (code.toList.take 4 ++ '-' :: code.toList.drop 4)
  else code

/-- The bytes from which a code is drawn evenly. -/
def drawLimit : Nat := 256 - 256 % pairCodeAlphabet.length

/-- The characters that random bytes give, up to a whole code: `none` when the bytes run out. -/
def drawFrom (code : List Char) : List UInt8 → Option (List Char)
  | [] => if code.length < pairCodeLen then none else some code
  | b :: bytes =>
    if code.length < pairCodeLen then
      if b.toNat < drawLimit then
        drawFrom (code ++ (pairCodeAlphabet[b.toNat % pairCodeAlphabet.length]?).toList) bytes
      else drawFrom code bytes
    else some code

def draw (bytes : List UInt8) : Option String := (drawFrom [] bytes).map String.ofList

/-- Compare in constant time. -/
def ctEq (a b : List UInt8) : Bool :=
  if a.length ≠ b.length then false
  else (a.zip b).foldl (fun diff p => diff ||| (p.1 ^^^ p.2)) 0 = 0

/-! ## minting and redeeming -/

namespace Store

/-- Drop the codes that have expired. -/
def fresh (store : Store) (now : Nat) : Store :=
  { store with codes := store.codes.filter fun entry => entry.2 > now }

/-- What minting writes. -/
def mint (store : Store) (code : String) (now : Nat) : Store :=
  let store := store.fresh now
  { store with codes := store.codes ++ [(code, now + pairCodeTtlSecs)] }

/-- The last entry that a code matches. -/
def hit (store : Store) (code : String) : Option Nat :=
  store.codes.zipIdx.foldl (fun hit e =>
    if ctEq e.1.1.toUTF8.data.toList code.toUTF8.data.toList then some e.2 else hit) none

/-- What an attempt answers, and what it writes. -/
def redeem (store : Store) (typed : String) (now : Nat) : Bool × Store :=
  let code := normalizeCode typed
  let store := store.fresh now
  match (store.hit code).filter fun _ => !code.isEmpty with
  | some i => (true, { codes := store.codes.eraseIdx i, fails := 0 })
  | none =>
    let fails := store.fails + 1
    (false, if pairCodeTries ≤ fails then {} else { store with fails })

end Store

/-! ## the file is read as it was written -/

theorem splitWhitespace_word {word : List Char} (hword : word ≠ [])
    (hclear : ∀ c ∈ word, isWhitespace c = false) : splitWhitespace word = [word] := by
  have hcut := cutAt_append_of_clear hclear []
  rw [List.append_nil] at hcut
  simp [splitWhitespace, stretches, hcut, cutAt, hword]

/-- What is decided of a list's characters, not of every character there is. -/
theorem forall_of_all {p : Char → Prop} [DecidablePred p] {cs : List Char}
    (h : (cs.all fun c => p c) = true) : ∀ c ∈ cs, p c := by
  simpa using h

theorem splitWhitespace_cons {word : List Char} (hword : word ≠ [])
    (hclear : ∀ c ∈ word, isWhitespace c = false) (rest : List Char) :
    splitWhitespace (word ++ ' ' :: rest) = word :: splitWhitespace rest := by
  have hcut := cutAt_append_of_clear hclear (' ' :: rest)
  have hspace : isWhitespace ' ' = true := by decide
  simp [splitWhitespace, stretches, hcut, cutAt, hspace, hword]

theorem toList_toString (n : Nat) : (toString n).toList = Nat.toDigits 10 n := by
  rw [Nat.toString_eq_repr, Nat.repr_eq_ofList_toDigits, String.toList_ofList]

theorem isDigit_of_mem_toDigits {n : Nat} {c : Char} (h : c ∈ (toString n).toList) :
    c.isDigit = true := by
  rw [toList_toString] at h
  exact Nat.isDigit_of_mem_toDigits (by decide) (by decide) h

theorem isWhitespace_of_isDigit {c : Char} (h : c.isDigit = true) : isWhitespace c = false := by
  simp only [Char.isDigit, Bool.and_eq_true, decide_eq_true_eq, UInt32.le_iff_toNat_le] at h
  have hlow : 48 ≤ c.toNat := h.1
  have hhigh : c.toNat ≤ 57 := h.2
  simp only [isWhitespace, Bool.or_eq_false_iff, Bool.and_eq_false_iff, decide_eq_false_iff_not,
    beq_eq_false_iff_ne]
  omega

theorem toString_ne_nil (n : Nat) : (toString n).toList ≠ [] := by
  rw [toList_toString]
  exact Nat.toDigits_ne_nil

/-- A number is read as it was written. -/
theorem parseUnsigned_toString {limit n : Nat} (h : n < limit) :
    parseUnsigned limit (toString n).toList = some n := by
  have hall : (toString n).toList.all Char.isDigit = true :=
    List.all_eq_true.mpr fun c hc => isDigit_of_mem_toDigits hc
  have hsign : (toString n).toList.head? ≠ some '+' := by
    intro hhead
    have hdigit := isDigit_of_mem_toDigits (List.mem_of_head? hhead)
    exact absurd hdigit (by decide)
  have hvalue : Nat.ofDigitChars 10 (toString n).toList 0 = n := by
    rw [toList_toString]
    exact Nat.ofDigitChars_toDigits (by decide) (by decide)
  have hne : (toString n).toList.isEmpty = false := by
    rw [List.isEmpty_eq_false_iff]
    exact toString_ne_nil n
  simp only [parseUnsigned, if_neg hsign, hall, hne, hvalue, if_pos h]
  simp

/-- A code as it may stand in the file. -/
structure IsWord (code : String) : Prop where
  ne : code.toList ≠ []
  clear : ∀ c ∈ code.toList, isWhitespace c = false

theorem readLine_codeLine (store : Store) {entry : String × Nat} (hcode : IsWord entry.1)
    (hexp : entry.2 < 2 ^ 64) :
    readLine store (codeLine entry) = { store with codes := store.codes ++ [entry] } := by
  have hwords : splitWhitespace (codeLine entry) =
      ["code".toList, entry.1.toList, (toString entry.2).toList] := by
    rw [codeLine, splitWhitespace_cons (by decide) (forall_of_all (by decide)),
      splitWhitespace_cons hcode.ne hcode.clear, splitWhitespace_word (toString_ne_nil _)]
    exact fun c hc => isWhitespace_of_isDigit (isDigit_of_mem_toDigits hc)
  simp only [readLine, hwords, if_true, parseUnsigned_toString hexp, String.ofList_toList]

theorem readLine_failsLine (store : Store) {fails : Nat} (h : fails < 2 ^ 32) :
    readLine store (failsLine fails) = { store with fails } := by
  have hwords : splitWhitespace (failsLine fails) = ["fails".toList, (toString fails).toList] := by
    rw [failsLine, splitWhitespace_cons (by decide) (forall_of_all (by decide)),
      splitWhitespace_word (toString_ne_nil _)]
    exact fun c hc => isWhitespace_of_isDigit (isDigit_of_mem_toDigits hc)
  simp only [readLine, hwords, if_true, parseUnsigned_toString h, Option.getD_some]

/-- A store that the file can hold. -/
structure Store.Valid (store : Store) : Prop where
  word : ∀ entry ∈ store.codes, IsWord entry.1
  exp : ∀ entry ∈ store.codes, entry.2 < 2 ^ 64
  fails : store.fails < pairCodeTries

/-- The lines of a file of whole lines, none of which ends in a carriage return. -/
theorem strLines_unlines {ls : List (List Char)} (hls : ∀ l ∈ ls, '\n' ∉ l)
    (hcr : ∀ l ∈ ls, l.getLast? ≠ some '\r') : strLines (unlines '\n' ls) = ls := by
  have hsplit := splitLines_unlines hls []
  rw [List.append_nil] at hsplit
  simp only [strLines, hsplit, splitLines, List.append_nil, if_true]
  rw [List.map_congr_left fun l hl => if_neg (hcr l hl), List.map_id']

/-- **Round trip.** A store is read as it was written. -/
theorem readStore_writeStore {store : Store} (h : store.Valid) :
    readStore (writeStore store) = store := by
  have hdigit {n : Nat} {c : Char} (hc : c ∈ (toString n).toList) : isWhitespace c = false :=
    isWhitespace_of_isDigit (isDigit_of_mem_toDigits hc)
  have hlast (n : Nat) (front : List Char) :
      (front ++ (toString n).toList).getLast? ≠ some '\r' := by
    intro hcr
    rw [List.getLast?_append_of_ne_nil _ (toString_ne_nil n)] at hcr
    exact absurd (hdigit (List.mem_of_getLast? hcr)) (by decide)
  have hlines : strLines (writeStore store) =
      store.codes.map codeLine ++ [failsLine store.fails] := by
    refine strLines_unlines ?_ ?_
    · intro l hl hnl
      obtain hl | hl := List.mem_append.mp hl
      · obtain ⟨entry, hentry, rfl⟩ := List.mem_map.mp hl
        simp only [codeLine, List.mem_append, List.mem_cons] at hnl
        obtain hnl | hnl | hnl | hnl | hnl := hnl
        · exact absurd hnl (by decide)
        · exact absurd hnl (by decide)
        · exact absurd ((h.word entry hentry).clear _ hnl) (by decide)
        · exact absurd hnl (by decide)
        · exact absurd (hdigit hnl) (by decide)
      · simp only [List.mem_singleton.mp hl, failsLine, List.mem_append, List.mem_cons] at hnl
        obtain hnl | hnl | hnl := hnl
        · exact absurd hnl (by decide)
        · exact absurd hnl (by decide)
        · exact absurd (hdigit hnl) (by decide)
    · intro l hl
      obtain hl | hl := List.mem_append.mp hl
      · obtain ⟨entry, -, rfl⟩ := List.mem_map.mp hl
        have hline : codeLine entry =
            ("code".toList ++ ' ' :: (entry.1.toList ++ [' '])) ++ (toString entry.2).toList := by
          simp [codeLine]
        rw [hline]
        exact hlast _ _
      · have hline : failsLine store.fails =
            ("fails".toList ++ [' ']) ++ (toString store.fails).toList := by
          simp [failsLine]
        rw [List.mem_singleton.mp hl, hline]
        exact hlast _ _
  have hcodes (entries : List (String × Nat)) (hentries : ∀ e ∈ entries, e ∈ store.codes)
      (s : Store) : (entries.map codeLine).foldl readLine s =
        { s with codes := s.codes ++ entries } := by
    induction entries generalizing s with
    | nil => simp
    | cons entry entries ih =>
      have hentry := hentries entry List.mem_cons_self
      rw [List.map_cons, List.foldl_cons, readLine_codeLine s (h.word entry hentry)
        (h.exp entry hentry), ih fun e he => hentries e (List.mem_cons_of_mem _ he)]
      simp
  have hfails : store.fails < 2 ^ 32 := Nat.lt_trans h.fails (by decide)
  rw [readStore, hlines, List.foldl_append, hcodes store.codes fun _ he => he]
  simp [readLine_failsLine _ hfails]

/-! ## codes -/

theorem ctEq_iff (a b : List UInt8) : ctEq a b = true ↔ a = b := by
  have hfold (a b : List UInt8) (d : UInt8) (hlen : a.length = b.length) :
      (a.zip b).foldl (fun diff p => diff ||| (p.1 ^^^ p.2)) d = 0 ↔ d = 0 ∧ a = b := by
    induction a generalizing b d with
    | nil =>
      obtain rfl := List.eq_nil_of_length_eq_zero hlen.symm
      simp
    | cons x a ih =>
      cases b with
      | nil => simp at hlen
      | cons y b =>
        simp only [List.length_cons, Nat.add_right_cancel_iff] at hlen
        rw [List.zip_cons_cons, List.foldl_cons, ih b _ hlen, UInt8.or_eq_zero_iff,
          UInt8.xor_eq_zero_iff, List.cons.injEq, and_assoc]
  unfold ctEq
  split
  case isTrue hne => simp only [Bool.false_eq_true, false_iff]; exact fun heq => hne (heq ▸ rfl)
  case isFalse hlen =>
    rw [not_not] at hlen
    rw [decide_eq_true_eq, hfold a b 0 hlen]
    simp

theorem ctEq_code (a b : String) :
    ctEq a.toUTF8.data.toList b.toUTF8.data.toList = true ↔ a = b := by
  rw [ctEq_iff, Array.toList_inj]
  constructor
  · intro h
    exact String.toByteArray_inj.mp (ByteArray.ext h)
  · rintro rfl
    rfl

/-- A hit is an entry of the code; without one there is none. -/
theorem hit_cases (store : Store) (code : String) :
    (∃ i exp, store.hit code = some i ∧ store.codes[i]? = some (code, exp)) ∨
    store.hit code = none ∧ ∀ exp, (code, exp) ∉ store.codes := by
  simp only [Store.hit, ctEq_code]
  induction store.codes using List.reverseRecOn with
  | nil => exact .inr ⟨rfl, fun _ => List.not_mem_nil⟩
  | append_singleton entries entry ih =>
    rw [List.zipIdx_append, List.foldl_append]
    simp only [List.zipIdx_singleton, List.foldl_cons, List.foldl_nil]
    obtain ⟨c, exp⟩ := entry
    by_cases hc : c = code
    · subst hc
      refine .inl ⟨_, exp, if_pos rfl, ?_⟩
      simp
    · simp only [if_neg hc]
      obtain ⟨i, exp', hhit, hi⟩ | ⟨hhit, hnone⟩ := ih
      · have hlt := (List.getElem?_eq_some_iff.mp hi).1
        exact .inl ⟨i, exp', hhit, List.getElem?_append_left hlt ▸ hi⟩
      · refine .inr ⟨hhit, ?_⟩
        intro exp' hmem
        obtain hmem | hmem := List.mem_append.mp hmem
        · exact hnone exp' hmem
        · exact hc (Prod.mk.inj (List.mem_singleton.mp hmem)).1.symm

/-- A code as it is minted. -/
structure IsCode (code : String) : Prop where
  length : code.toList.length = pairCodeLen
  alphabet : ∀ c ∈ code.toList, c ∈ pairCodeAlphabet

theorem drawFrom_isCode {code cs : List Char} {bytes : List UInt8}
    (hlen : code.length ≤ pairCodeLen) (hcode : ∀ c ∈ code, c ∈ pairCodeAlphabet)
    (h : drawFrom code bytes = some cs) :
    cs.length = pairCodeLen ∧ ∀ c ∈ cs, c ∈ pairCodeAlphabet := by
  induction bytes generalizing code with
  | nil =>
    rw [drawFrom] at h
    split at h
    · cases h
    · obtain rfl := Option.some.inj h
      exact ⟨by omega, hcode⟩
  | cons b bytes ih =>
    rw [drawFrom] at h
    split at h
    case isTrue hshort =>
      split at h
      · refine ih ?_ ?_ h
        · rw [List.length_append]
          have hone : ∀ o : Option Char, o.toList.length ≤ 1 := fun o => by cases o <;> simp
          have := hone pairCodeAlphabet[b.toNat % pairCodeAlphabet.length]?
          omega
        · intro c hc
          obtain hc | hc := List.mem_append.mp hc
          · exact hcode c hc
          · exact List.mem_of_getElem? (Option.mem_toList.mp hc)
      · exact ih hlen hcode h
    case isFalse hlong =>
      obtain rfl := Option.some.inj h
      exact ⟨by omega, hcode⟩

theorem draw_isCode {bytes : List UInt8} {code : String} (h : draw bytes = some code) :
    IsCode code := by
  obtain ⟨cs, hcs, rfl⟩ := Option.map_eq_some_iff.mp h
  obtain ⟨hlen, hmem⟩ := drawFrom_isCode (Nat.zero_le _) (by simp) hcs
  exact ⟨by rwa [String.toList_ofList], by rwa [String.toList_ofList]⟩

theorem IsCode.isWord {code : String} (h : IsCode code) : IsWord code where
  ne hnil := by
    have hlen := h.length
    rw [hnil] at hlen
    exact absurd hlen (by decide)
  clear c hc := by
    have hall : ∀ c ∈ pairCodeAlphabet, isWhitespace c = false := forall_of_all (by decide)
    exact hall c (h.alphabet c hc)

/-- Every character of the alphabet stands for as many bytes as every other. -/
example : (pairCodeAlphabet.all fun c => ((List.range drawLimit).filter fun b =>
    pairCodeAlphabet[b % pairCodeAlphabet.length]? = some c).length = 8) = true := by
  decide +kernel

theorem utf8ByteSize_ofList {cs : List Char} (h : ∀ c ∈ cs, c.utf8Size = 1) :
    (String.ofList cs).utf8ByteSize = cs.length := by
  induction cs with
  | nil => rfl
  | cons c cs ih =>
    rw [String.ofList_cons, String.utf8ByteSize_append, String.utf8ByteSize_singleton,
      h c List.mem_cons_self, ih fun d hd => h d (List.mem_cons_of_mem _ hd), List.length_cons,
      Nat.add_comm]

theorem toList_displayCode {code : String} (h : IsCode code) :
    (displayCode code).toList = code.toList.take 4 ++ '-' :: code.toList.drop 4 := by
  have hone : ∀ c ∈ pairCodeAlphabet, c.utf8Size = 1 := forall_of_all (by decide)
  have hsize : code.utf8ByteSize = pairCodeLen := by
    rw [← String.ofList_toList (s := code),
      utf8ByteSize_ofList fun c hc => hone c (h.alphabet c hc), h.length]
  rw [displayCode, if_pos hsize, String.toList_ofList]

theorem isAlphanum_of_letter {c : Char}
    (h : 65 ≤ c.val.toNat ∧ c.val.toNat ≤ 90 ∨ 97 ≤ c.val.toNat ∧ c.val.toNat ≤ 122) :
    c.isAlphanum = true := by
  have heq : c.isAlphanum = ((decide (65 ≤ c.val ∧ c.val ≤ 90) ||
    decide (97 ≤ c.val) && decide (c.val ≤ 122)) || c.isDigit) := rfl
  simp only [heq, Bool.or_eq_true, Bool.and_eq_true, decide_eq_true_eq, UInt32.le_iff_toNat_le]
  exact .inl h

theorem isAlphanum_toUpper (c : Char) : c.toUpper.isAlphanum = c.isAlphanum := by
  by_cases hlower : c.val ≥ 'a'.val ∧ c.val ≤ 'z'.val
  · have hlow : 97 ≤ c.val.toNat := UInt32.le_iff_toNat_le.mp hlower.1
    have hhigh : c.val.toNat ≤ 122 := UInt32.le_iff_toNat_le.mp hlower.2
    have hval : c.toUpper.val.toNat = c.val.toNat - 32 := by
      rw [show c.toUpper = _ from dif_pos hlower]
      show (c.val + ('A'.val - 'a'.val)).toNat = _
      rw [UInt32.toNat_add]
      show (c.val.toNat + 4294967264) % 4294967296 = _
      omega
    rw [isAlphanum_of_letter (.inr ⟨hlow, hhigh⟩), isAlphanum_of_letter (.inl (by omega))]
  · rw [show c.toUpper = c from dif_neg hlower]

/-- **Typed codes.** A code that is typed as it was shown, in letters of any case, is the code. -/
theorem normalizeCode_displayCode {code typed : String} (h : IsCode code)
    (htyped : typed.toList.map Char.toUpper = (displayCode code).toList.map Char.toUpper) :
    normalizeCode typed = code := by
  have hfilter (cs : List Char) : (cs.filter Char.isAlphanum).map Char.toUpper =
      (cs.map Char.toUpper).filter Char.isAlphanum := by
    rw [List.filter_map]
    congr 1
    exact List.filter_congr fun c _ => (isAlphanum_toUpper c).symm
  have halphabet : ∀ c ∈ pairCodeAlphabet, c.toUpper = c ∧ c.isAlphanum = true :=
    forall_of_all (by decide)
  have hkept (cs : List Char) (hcs : ∀ c ∈ cs, c ∈ pairCodeAlphabet) :
      (cs.map Char.toUpper).filter Char.isAlphanum = cs := by
    rw [List.map_congr_left fun c hc => (halphabet c (hcs c hc)).1, List.map_id']
    exact List.filter_eq_self.mpr fun c hc => (halphabet c (hcs c hc)).2
  rw [normalizeCode, hfilter, htyped, toList_displayCode h, List.map_append, List.filter_append,
    List.map_cons, hkept _ fun c hc => h.alphabet c (List.mem_of_mem_take hc),
    List.filter_cons_of_neg (by decide),
    hkept _ fun c hc => h.alphabet c (List.mem_of_mem_drop hc), List.take_append_drop,
    String.ofList_toList]

end ClaudeReplay.Pairing
