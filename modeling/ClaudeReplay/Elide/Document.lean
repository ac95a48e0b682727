import ClaudeReplay.Elide.Keys
import ClaudeReplay.Elide.Pair
import ClaudeReplay.Reader

/-!
# ClaudeReplay.Elide.Document

An elided line as a document. A line that is one JSON value is handed on as a document
of the same shape, with what the frames say in place of the elided strings
(`Json.shown`); it parses exactly if no cut splits a surrogate pair
(`elided_parses_iff`), and then whatever is read under the same keys is the same, an
oversized string apart.
-/

namespace ClaudeReplay

open Lib (quote backslash Esc Whole Decoder decode)
open Lib.Utf8 (lossy valid)

/-! ## texts that parse -/

/-- The blanks of JSON. -/
def isJsonBlank (b : UInt8) : Bool := b == 0x20 || b == 0x09 || b == 0x0A || b == 0x0D

/-- A digit. -/
def isDigit (b : UInt8) : Bool := decide (0x30 ≤ b) && decide (b ≤ 0x39)

/-- A place in a number. -/
inductive NumberPlace
  | start
  | minus
  | zero
  | whole
  | point
  | fraction
  | exponent
  | sign
  | power
  deriving DecidableEq, Repr

namespace NumberPlace

/-- One byte of a number. -/
def step : NumberPlace → UInt8 → Option NumberPlace
  | .start, b =>
    if b = 0x2D then some .minus
    else if b = 0x30 then some .zero
    else if isDigit b then some .whole
    else none
  | .minus, b => if b = 0x30 then some .zero else if isDigit b then some .whole else none
  | .zero, b =>
    if b = 0x2E then some .point
    else if b = 0x65 ∨ b = 0x45 then some .exponent
    else none
  | .whole, b =>
    if isDigit b then some .whole
    else if b = 0x2E then some .point
    else if b = 0x65 ∨ b = 0x45 then some .exponent
    else none
  | .point, b => if isDigit b then some .fraction else none
  | .fraction, b =>
    if isDigit b then some .fraction
    else if b = 0x65 ∨ b = 0x45 then some .exponent
    else none
  | .exponent, b =>
    if b = 0x2B ∨ b = 0x2D then some .sign else if isDigit b then some .power else none
  | .sign, b => if isDigit b then some .power else none
  | .power, b => if isDigit b then some .power else none

/-- A number may end here. -/
def ends : NumberPlace → Bool
  | .zero | .whole | .fraction | .power => true
  | _ => false

/-- The bytes from a place on are the rest of a number. -/
def reads (p : NumberPlace) : List UInt8 → Bool
  | [] => p.ends
  | b :: bs =>
    match p.step b with
    | some q => q.reads bs
    | none => false

end NumberPlace

/-- `null`, `true` and `false`. -/
def literals : List (List UInt8) :=
  [[0x6E, 0x75, 0x6C, 0x6C], [0x74, 0x72, 0x75, 0x65], [0x66, 0x61, 0x6C, 0x73, 0x65]]

/-- A number or a literal. -/
def atomText (bs : List UInt8) : Bool := literals.contains bs || NumberPlace.start.reads bs

mutual

/-- A document that parses. -/
def Json.Parses : Json → Prop
  | .atom bs => atomText bs = true
  | .str xs => Content xs
  | .pad l v r => (∀ b ∈ l, isJsonBlank b = true) ∧ v.Parses ∧ ∀ b ∈ r, isJsonBlank b = true
  | .array blank items => (∀ b ∈ blank, isJsonBlank b = true) ∧ items.Parses
  | .object blank members => (∀ b ∈ blank, isJsonBlank b = true) ∧ members.Parses

/-- Its elements parse. -/
def Items.Parses : Items → Prop
  | .nil => True
  | .cons v rest => v.Parses ∧ rest.Parses

/-- Its members parse. -/
def Members.Parses : Members → Prop
  | .nil => True
  | .cons l k r v rest => (∀ b ∈ l, isJsonBlank b = true) ∧ Content k ∧
      (∀ b ∈ r, isJsonBlank b = true) ∧ v.Parses ∧ rest.Parses

end

/-! ## documents with elided strings -/

mutual

/-- The second document is the first, but for oversized string values that are framed. -/
def Json.Elided : Json → Json → Prop
  | .atom bs, w => w = .atom bs
  | .str xs, w =>
    w = .str xs ∨ elideStringBytes < xs.length ∧ ∃ off, w = .str (lossy (frame off xs))
  | .pad l v r, w => ∃ v', w = .pad l v' r ∧ v.Elided v'
  | .array blank items, w => ∃ items', w = .array blank items' ∧ items.Elided items'
  | .object blank members, w => ∃ members', w = .object blank members' ∧ members.Elided members'

/-- Element by element. -/
def Items.Elided : Items → Items → Prop
  | .nil, w => w = .nil
  | .cons v rest, w => ∃ v' rest', w = .cons v' rest' ∧ v.Elided v' ∧ rest.Elided rest'

/-- Member by member, under the same keys. -/
def Members.Elided : Members → Members → Prop
  | .nil, w => w = .nil
  | .cons l k r v rest, w =>
    ∃ v' rest', w = .cons l k r v' rest' ∧ v.Elided v' ∧ rest.Elided rest'

end

/-! ## reading under keys -/

/-- The last member of this name. -/
def Members.get (k : List UInt8) : Members → Option Json
  | .nil => none
  | .cons _ key _ v rest =>
    match rest.get k with
    | some w => some w
    | none => if decode key = some k then some v else none

/-- `get`: the member of an object. -/
def Json.get (k : List UInt8) : Json → Option Json
  | .pad _ v _ => v.get k
  | .object _ members => members.get k
  | _ => none

/-- What stands under these keys. -/
def Json.path : List (List UInt8) → Json → Option Json
  | [], v => some v
  | k :: ks, v => (v.get k).bind (Json.path ks)

/-- A number or a literal. -/
def Json.leaf : Json → Option (List UInt8)
  | .pad _ v _ => v.leaf
  | .atom bs => some bs
  | _ => none

/-- A string. -/
def Json.text : Json → Option (List UInt8)
  | .pad _ v _ => v.text
  | .str xs => some xs
  | _ => none

/-- The members of a name are elided alike. -/
theorem Members.get_elided (k : List UInt8) : ∀ {members members' : Members},
    members.Elided members' → Option.Rel Json.Elided (members.get k) (members'.get k)
  | .nil, _, h => by
    rw [Members.Elided] at h
    rw [h, Members.get]
    exact .none
  | .cons l key r v rest, _, h => by
    rw [Members.Elided] at h
    obtain ⟨v', rest', rfl, hv, hrest⟩ := h
    have hlast := Members.get_elided k hrest
    rw [Members.get, Members.get]
    cases hget : rest.get k with
    | some w =>
      rw [hget] at hlast
      cases hget' : rest'.get k with
      | some w' =>
        rw [hget'] at hlast
        exact hlast
      | none =>
        rw [hget'] at hlast
        cases hlast
    | none =>
      rw [hget] at hlast
      cases hget' : rest'.get k with
      | some w' =>
        rw [hget'] at hlast
        cases hlast
      | none =>
        show Option.Rel _ (if _ then _ else _) (if _ then _ else _)
        split
        · exact .some hv
        · exact .none

theorem Json.get_elided (k : List UInt8) : ∀ {v w : Json}, v.Elided w →
    Option.Rel Json.Elided (v.get k) (w.get k)
  | .atom bs, _, h => by
    rw [Json.Elided] at h
    rw [h]
    exact .none
  | .str xs, _, h => by
    rw [Json.Elided] at h
    obtain rfl | ⟨-, off, rfl⟩ := h
    · exact .none
    · exact .none
  | .pad l v r, _, h => by
    rw [Json.Elided] at h
    obtain ⟨v', rfl, hv⟩ := h
    rw [Json.get, Json.get]
    exact Json.get_elided k hv
  | .array blank items, _, h => by
    rw [Json.Elided] at h
    obtain ⟨items', rfl, -⟩ := h
    exact .none
  | .object blank members, _, h => by
    rw [Json.Elided] at h
    obtain ⟨members', rfl, hm⟩ := h
    exact Members.get_elided k hm

/-- **What stands under the same keys is elided alike.** -/
theorem Json.path_elided (ks : List (List UInt8)) {v w : Json} (h : v.Elided w) :
    Option.Rel Json.Elided (v.path ks) (w.path ks) := by
  induction ks generalizing v w with
  | nil => exact .some h
  | cons k ks ih =>
    have hget := Json.get_elided k h
    rw [Json.path, Json.path]
    cases hv : v.get k with
    | none =>
      rw [hv] at hget
      cases hw : w.get k with
      | none => exact .none
      | some w' =>
        rw [hw] at hget
        cases hget
    | some v' =>
      rw [hv] at hget
      cases hw : w.get k with
      | none =>
        rw [hw] at hget
        cases hget
      | some w' =>
        rw [hw] at hget
        cases hget with
        | some hrel => exact ih hrel

theorem Json.leaf_elided : ∀ {v w : Json}, v.Elided w → w.leaf = v.leaf
  | .atom bs, _, h => by
    rw [Json.Elided] at h
    rw [h]
  | .str xs, _, h => by
    rw [Json.Elided] at h
    obtain rfl | ⟨-, off, rfl⟩ := h
    · rfl
    · rfl
  | .pad l v r, _, h => by
    rw [Json.Elided] at h
    obtain ⟨v', rfl, hv⟩ := h
    show v'.leaf = v.leaf
    exact Json.leaf_elided hv
  | .array blank items, _, h => by
    rw [Json.Elided] at h
    obtain ⟨items', rfl, -⟩ := h
    rfl
  | .object blank members, _, h => by
    rw [Json.Elided] at h
    obtain ⟨members', rfl, -⟩ := h
    rfl

/-- A string that is not oversized is not elided. -/
theorem Json.text_elided : ∀ {v w : Json}, v.Elided w →
    (∀ xs, v.text = some xs → xs.length ≤ elideStringBytes) → w.text = v.text
  | .atom bs, _, h, _ => by
    rw [Json.Elided] at h
    rw [h]
  | .str xs, _, h, hshort => by
    rw [Json.Elided] at h
    obtain rfl | ⟨hlong, -⟩ := h
    · rfl
    · exact absurd (hshort xs rfl) (Nat.not_le.mpr hlong)
  | .pad l v r, _, h, hshort => by
    rw [Json.Elided] at h
    obtain ⟨v', rfl, hv⟩ := h
    show v'.text = v.text
    exact Json.text_elided hv hshort
  | .array blank items, _, h, _ => by
    rw [Json.Elided] at h
    obtain ⟨items', rfl, -⟩ := h
    rfl
  | .object blank members, _, h, _ => by
    rw [Json.Elided] at h
    obtain ⟨members', rfl, -⟩ := h
    rfl

/-- What is read under some keys is the same, if eliding what stands there leaves it. -/
theorem Json.bind_path {v w : Json} {g : Json → Option (List UInt8)} (h : v.Elided w)
    {ks : List (List UInt8)} (hg : ∀ v' w', v.path ks = some v' → v'.Elided w' → g w' = g v') :
    (w.path ks).bind g = (v.path ks).bind g := by
  have hpath := Json.path_elided ks h
  cases hv : v.path ks with
  | none =>
    rw [hv] at hpath
    cases hw : w.path ks with
    | none => rfl
    | some w' =>
      rw [hw] at hpath
      cases hpath
  | some v' =>
    rw [hv] at hpath
    cases hw : w.path ks with
    | none =>
      rw [hw] at hpath
      cases hpath
    | some w' =>
      rw [hw] at hpath
      cases hpath with
      | some hrel => exact hg v' w' hv hrel

/-- **Every number, boolean and null is where it was.** -/
theorem Json.leaf_path {v w : Json} (h : v.Elided w) (ks : List (List UInt8)) :
    (w.path ks).bind Json.leaf = (v.path ks).bind Json.leaf :=
  Json.bind_path h fun _ _ _ => Json.leaf_elided

/-- **So is every string that is not oversized.** -/
theorem Json.text_path {v w : Json} (h : v.Elided w) (ks : List (List UInt8))
    (hshort : ∀ xs, (v.path ks).bind Json.text = some xs → xs.length ≤ elideStringBytes) :
    (w.path ks).bind Json.text = (v.path ks).bind Json.text :=
  Json.bind_path h fun v' _ hv' hrel => Json.text_elided hrel fun xs hxs =>
    hshort xs (by rw [hv', Option.bind_some, hxs])

/-! ## the tokens of a document -/

mutual

/-- The strings of a document, and the bytes between them. -/
def Json.tokens : Json → List Token
  | .atom bs => bs.map .byte
  | .str xs => [.str xs]
  | .pad l v r => l.map .byte ++ v.tokens ++ r.map .byte
  | .array blank items =>
    [.byte 0x5B] ++ blank.map .byte ++ items.tokens [] ++ [.byte 0x5D]
  | .object blank members =>
    [.byte 0x7B] ++ blank.map .byte ++ members.tokens [] ++ [.byte 0x7D]

/-- Those of the elements. -/
def Items.tokens (sep : List UInt8) : Items → List Token
  | .nil => []
  | .cons v rest => sep.map .byte ++ v.tokens ++ rest.tokens [0x2C]

/-- Those of the members. -/
def Members.tokens (sep : List UInt8) : Members → List Token
  | .nil => []
  | .cons l k r v rest =>
    sep.map .byte ++ l.map .byte ++ [.str k] ++ r.map .byte ++ [.byte 0x3A] ++ v.tokens ++
      rest.tokens [0x2C]

end

mutual

theorem Json.render_tokens : ∀ v : Json, renderTokens v.tokens = v.render
  | .atom bs => by simp [Json.tokens, Json.render, renderTokens_bytes]
  | .str xs => by simp [Json.tokens, Json.render, renderTokens, Token.render]
  | .pad l v r => by
    simp [Json.tokens, Json.render, renderTokens_append, renderTokens_bytes, v.render_tokens]
  | .array blank items => by
    have hitems := items.render_tokens []
    simp [Json.tokens, Json.render, renderTokens_append, renderTokens_cons, renderTokens_bytes,
      Token.render, hitems]
    rfl
  | .object blank members => by
    have hmembers := members.render_tokens []
    simp [Json.tokens, Json.render, renderTokens_append, renderTokens_cons, renderTokens_bytes,
      Token.render, hmembers]
    rfl

theorem Items.render_tokens (sep : List UInt8) :
    ∀ items : Items, renderTokens (items.tokens sep) = items.render sep
  | .nil => rfl
  | .cons v rest => by
    simp [Items.tokens, Items.render, renderTokens_append, renderTokens_bytes, v.render_tokens,
      rest.render_tokens [0x2C]]

theorem Members.render_tokens (sep : List UInt8) :
    ∀ members : Members, renderTokens (members.tokens sep) = members.render sep
  | .nil => rfl
  | .cons l k r v rest => by
    simp [Members.tokens, Members.render, renderTokens_append, renderTokens_cons,
      renderTokens_bytes, Token.render, v.render_tokens, rest.render_tokens [0x2C]]

end

/-! ## what a document that parses is made of -/

/-- A byte of a blank or of an atom. -/
def Textual (b : UInt8) : Prop := Filler b ∧ b < 0x80

theorem textual_blank {b : UInt8} (h : isJsonBlank b = true) : Textual b := by
  simp only [isJsonBlank, Bool.or_eq_true, beq_iff_eq] at h
  obtain ((rfl | rfl) | rfl) | rfl := h
  all_goals
    unfold Textual Filler
    decide

/-- A byte of an atom. -/
def Printed (b : UInt8) : Prop := Textual b ∧ isAsciiWhitespace b = false

theorem printed_digit {b : UInt8} (h : isDigit b = true) : Printed b := by
  have hne : ∀ c : UInt8, isDigit c = false → b ≠ c := by
    rintro c hc rfl
    rw [h] at hc
    contradiction
  have hbound := h
  simp only [isDigit, Bool.and_eq_true, decide_eq_true_eq] at hbound
  refine ⟨⟨⟨hne _ (by decide), hne _ (by decide), hne _ (by decide), hne _ (by decide),
    hne _ (by decide), hne _ (by decide), hne _ (by decide)⟩, ?_⟩, ?_⟩
  · exact UInt8.lt_of_le_of_lt hbound.2 (by decide)
  · simp [isAsciiWhitespace, hne 0x20 (by decide), hne 0x09 (by decide), hne 0x0A (by decide),
      hne 0x0C (by decide), hne 0x0D (by decide)]

/-- A number is made of digits, signs, a point and an exponent. -/
theorem NumberPlace.printed_step {p q : NumberPlace} {b : UInt8} (h : p.step b = some q) :
    Printed b := by
  have hmark : ∀ c ∈ [(0x2D : UInt8), 0x30, 0x2E, 0x65, 0x45, 0x2B], b = c → Printed b := by
    rintro c hc rfl
    simp only [List.mem_cons, List.not_mem_nil, or_false] at hc
    obtain rfl | rfl | rfl | rfl | rfl | rfl := hc
    all_goals
      unfold Printed Textual Filler
      decide
  by_cases hdigit : isDigit b = true
  · exact printed_digit hdigit
  · have hmarks : b = 0x2D ∨ b = 0x30 ∨ b = 0x2E ∨ b = 0x65 ∨ b = 0x45 ∨ b = 0x2B := by
      cases p <;> simp only [step, hdigit] at h <;> grind
    obtain heq | heq | heq | heq | heq | heq := hmarks
    all_goals exact hmark _ (by simp) heq

theorem NumberPlace.printed_reads {p : NumberPlace} {bs : List UInt8} (h : p.reads bs = true) :
    ∀ b ∈ bs, Printed b := by
  induction bs generalizing p with
  | nil => simp
  | cons b bs ih =>
    rw [reads] at h
    split at h
    · next q hstep =>
      rintro a (_ | ⟨_, ha⟩)
      · exact printed_step hstep
      · exact ih h a ha
    · contradiction

theorem printed_atom {bs : List UInt8} (h : atomText bs = true) : ∀ b ∈ bs, Printed b := by
  rw [atomText, Bool.or_eq_true] at h
  obtain h | h := h
  · intro b hb
    have hall : literals.all (fun bs => bs.all fun b => decide (b ≠ quote ∧ b ≠ 0x7B ∧ b ≠ 0x5B ∧
        b ≠ 0x7D ∧ b ≠ 0x5D ∧ b ≠ 0x3A ∧ b ≠ 0x2C) && decide (b < 0x80) &&
          !isAsciiWhitespace b) = true := by decide
    have hmem := List.all_eq_true.mp hall bs (List.contains_iff_mem.mp h)
    have hbyte := List.all_eq_true.mp hmem b hb
    rw [Bool.and_eq_true, Bool.and_eq_true, decide_eq_true_eq, decide_eq_true_eq,
      Bool.not_eq_true'] at hbyte
    exact hbyte
  · exact NumberPlace.printed_reads h

theorem atomText_ne_nil {bs : List UInt8} (h : atomText bs = true) : bs ≠ [] := by
  have hnil : atomText [] = false := by decide
  rintro rfl
  rw [hnil] at h
  contradiction

/-- The first byte of a token. -/
def Token.head : Token → UInt8
  | .str _ => quote
  | .byte b => b

/-- A token of a document that parses. -/
def Token.Proper : Token → Prop
  | .str xs => Content xs
  | .byte b => b ≠ quote ∧ b < 0x80

theorem Content.whole {xs : List UInt8} (h : Content xs) : Whole xs :=
  Decoder.reach_whole ((Decoder.run_isSome .plain xs).mp h.1) rfl rfl

theorem Token.Proper.valid {t : Token} (h : t.Proper) : t.Valid := by
  cases t with
  | str xs => exact Content.whole h
  | byte b => exact h.1

/-- Tokens of a document that parses. -/
def ProperTokens (ts : List Token) : Prop := ∀ t ∈ ts, t.Proper

theorem properTokens_append {ts us : List Token} :
    ProperTokens (ts ++ us) ↔ ProperTokens ts ∧ ProperTokens us :=
  List.forall_mem_append

theorem properTokens_bytes {bs : List UInt8} (h : ∀ b ∈ bs, b ≠ quote ∧ b < 0x80) :
    ProperTokens (bs.map .byte) := by
  intro t ht
  obtain ⟨b, hb, rfl⟩ := List.mem_map.mp ht
  exact h b hb

theorem properTokens_byte {b : UInt8} (h : b ≠ quote ∧ b < 0x80) : ProperTokens [.byte b] :=
  @properTokens_bytes [b] (List.forall_mem_singleton.mpr h)

theorem properTokens_textual {bs : List UInt8} (h : ∀ b ∈ bs, Textual b) :
    ProperTokens (bs.map .byte) :=
  properTokens_bytes fun b hb => ⟨(h b hb).1.1, (h b hb).2⟩

theorem properTokens_blank {bs : List UInt8} (h : ∀ b ∈ bs, isJsonBlank b = true) :
    ProperTokens (bs.map .byte) :=
  properTokens_textual fun b hb => textual_blank (h b hb)

theorem properTokens_str {xs : List UInt8} (h : Content xs) : ProperTokens [.str xs] := by
  intro t ht
  rw [List.mem_singleton.mp ht]
  exact h

mutual

/-- **The tokens of a document that parses.** -/
theorem Json.properTokens : ∀ {v : Json}, v.Parses → ProperTokens v.tokens
  | .atom bs, h => by
    rw [Json.Parses] at h
    exact properTokens_textual fun b hb => (printed_atom h b hb).1
  | .str xs, h => by
    rw [Json.Parses] at h
    exact properTokens_str h
  | .pad l v r, h => by
    rw [Json.Parses] at h
    obtain ⟨hl, hv, hr⟩ := h
    simp only [Json.tokens, properTokens_append]
    exact ⟨⟨properTokens_blank hl, Json.properTokens hv⟩, properTokens_blank hr⟩
  | .array blank items, h => by
    rw [Json.Parses] at h
    obtain ⟨hblank, hitems⟩ := h
    have hinner := @Items.properTokens _ [] (fun _ hb => nomatch hb) hitems
    simp only [Json.tokens, properTokens_append]
    exact ⟨⟨⟨properTokens_byte (by decide), properTokens_blank hblank⟩, hinner⟩,
      properTokens_byte (by decide)⟩
  | .object blank members, h => by
    rw [Json.Parses] at h
    obtain ⟨hblank, hmembers⟩ := h
    have hinner := @Members.properTokens _ [] (fun _ hb => nomatch hb) hmembers
    simp only [Json.tokens, properTokens_append]
    exact ⟨⟨⟨properTokens_byte (by decide), properTokens_blank hblank⟩, hinner⟩,
      properTokens_byte (by decide)⟩

theorem Items.properTokens : ∀ {items : Items} {sep : List UInt8},
    (∀ b ∈ sep, b ≠ quote ∧ b < 0x80) → items.Parses → ProperTokens (items.tokens sep)
  | .nil, _, _, _ => by simp [Items.tokens, ProperTokens]
  | .cons v rest, sep, hsep, h => by
    rw [Items.Parses] at h
    have hcomma := @Items.properTokens _ [0x2C]
      (List.forall_mem_singleton.mpr (by decide)) h.2
    simp only [Items.tokens, properTokens_append]
    exact ⟨⟨properTokens_bytes hsep, Json.properTokens h.1⟩, hcomma⟩

theorem Members.properTokens : ∀ {members : Members} {sep : List UInt8},
    (∀ b ∈ sep, b ≠ quote ∧ b < 0x80) → members.Parses → ProperTokens (members.tokens sep)
  | .nil, _, _, _ => by simp [Members.tokens, ProperTokens]
  | .cons l k r v rest, sep, hsep, h => by
    rw [Members.Parses] at h
    obtain ⟨hl, hk, hr, hv, hrest⟩ := h
    have hcomma := @Members.properTokens _ [0x2C]
      (List.forall_mem_singleton.mpr (by decide)) hrest
    simp only [Members.tokens, properTokens_append]
    exact ⟨⟨⟨⟨⟨⟨properTokens_bytes hsep, properTokens_blank hl⟩, properTokens_str hk⟩,
      properTokens_blank hr⟩, properTokens_byte (by decide)⟩, Json.properTokens hv⟩, hcomma⟩

end

/-! ## what is shown of a document -/

namespace Scope

/-- The tokens handed on for these, as text. -/
def shown (s : Scope) : List Token → List Token
  | [] => []
  | .str xs :: ts =>
    .str (if s.elides xs then lossy (frame (s.lineStart + s.pos + 1) xs) else xs) ::
      (s.str xs).1.shown ts
  | .byte b :: ts => .byte b :: (s.token (.byte b)).1.shown ts

/-- The contents that are cut. -/
def cutContents (s : Scope) : List Token → List (List UInt8)
  | [] => []
  | .str xs :: ts => (if s.elides xs then [xs] else []) ++ (s.str xs).1.cutContents ts
  | .byte b :: ts => (s.token (.byte b)).1.cutContents ts

theorem shown_append (s : Scope) (ts us : List Token) :
    s.shown (ts ++ us) = s.shown ts ++ (s.tokens ts).1.shown us := by
  induction ts generalizing s with
  | nil => rfl
  | cons t ts ih =>
    cases t with
    | str xs => simp only [List.cons_append, shown, ih, tokens_cons, token]
    | byte b => simp only [List.cons_append, shown, ih, tokens_cons]

theorem shown_bytes (s : Scope) (bs : List UInt8) :
    s.shown (bs.map .byte) = bs.map .byte := by
  induction bs generalizing s with
  | nil => rfl
  | cons b bs ih => rw [List.map_cons, shown, ih]

/-- **The text handed on**, with what it is patched with. -/
theorem lossy_tokens (s : Scope) {ts : List Token} (hts : ProperTokens ts) (ys : List UInt8) :
    lossy ((s.tokens ts).2 ++ ys) = renderTokens (s.shown ts) ++ lossy ys := by
  have hquote : quote < 0x80 := by decide
  induction ts generalizing s with
  | nil => rfl
  | cons t ts ih =>
    obtain ⟨ht, hrest⟩ := List.forall_mem_cons.mp hts
    have htail := ih (s.token t).1 hrest
    rw [tokens_cons, List.append_assoc]
    cases t with
    | byte b =>
      rw [shown, renderTokens_cons, List.append_assoc, ← htail]
      exact Lib.Utf8.lossy_cons_ascii ht.2 _
    | str xs =>
      have hcontent : lossy (if s.elides xs then frame (s.lineStart + s.pos + 1) xs else xs) =
          if s.elides xs then lossy (frame (s.lineStart + s.pos + 1) xs) else xs := by
        split
        · rfl
        · exact Lib.Utf8.lossy_of_valid ht.2
      rw [shown, renderTokens_cons, List.append_assoc, ← hcontent]
      simp only [token] at htail ⊢
      rw [← htail]
      simp only [str, Token.render, List.append_assoc, List.cons_append, List.nil_append]
      rw [Lib.Utf8.lossy_cons_ascii hquote, Lib.Utf8.lossy_append_ascii _ hquote]

/-- The bytes handed on are the line's, or printed. -/
theorem mem_tokens {s : Scope} {ts : List Token} {b : UInt8} (h : b ∈ (s.tokens ts).2) :
    b ∈ renderTokens ts ∨ Decoder.plain.step b = some (.plain, [b]) := by
  induction ts generalizing s with
  | nil => exact absurd h List.not_mem_nil
  | cons t ts ih =>
    rw [tokens_cons, List.mem_append] at h
    rw [renderTokens_cons, List.mem_append]
    obtain h | h := h
    · cases t with
      | byte b => exact .inl (.inl h)
      | str xs =>
        simp only [token, str, List.mem_append, List.mem_singleton] at h
        simp only [Token.render, List.mem_append, List.mem_cons, List.not_mem_nil, or_false]
        obtain (h | h) | h := h
        · exact .inl (.inl (.inl (.inl h)))
        · split at h
          · simp only [frame, List.mem_append] at h
            obtain (h | h) | h := h
            · exact .inl (.inl (.inl (.inr (List.mem_of_mem_take h))))
            · exact .inr (mem_marker h).2
            · exact .inl (.inl (.inl (.inr (List.mem_of_mem_drop h))))
          · exact .inl (.inl (.inl (.inr h)))
        · exact .inl (.inl (.inr h))
    · obtain h | h := ih h
      · exact .inl (.inr h)
      · exact .inr h

/-- What stands between the strings is handed on, and so are the quotes. -/
theorem head_mem_tokens {s : Scope} {ts : List Token} {t : Token} (h : t ∈ ts) :
    t.head ∈ (s.tokens ts).2 := by
  induction ts generalizing s with
  | nil => exact absurd h List.not_mem_nil
  | cons u ts ih =>
    rw [tokens_cons, List.mem_append]
    obtain rfl | h := List.mem_cons.mp h
    · refine .inl ?_
      cases t with
      | str xs => simp [token, str, Token.head]
      | byte b => simp [token, Token.head]
    · exact .inr (ih h)

/-- A string is shown as it is, or cut. -/
theorem str_mem_shown {s : Scope} {ts : List Token} {ys : List UInt8}
    (h : .str ys ∈ s.shown ts) :
    .str ys ∈ ts ∨ ∃ xs ∈ s.cutContents ts, ∃ off, ys = lossy (frame off xs) := by
  induction ts generalizing s with
  | nil => exact absurd h List.not_mem_nil
  | cons t ts ih =>
    cases t with
    | byte b =>
      rw [shown] at h
      obtain h | h := List.mem_cons.mp h
      · contradiction
      · obtain h | ⟨xs, hxs, hoff⟩ := ih h
        · exact .inl (List.mem_cons_of_mem _ h)
        · exact .inr ⟨xs, hxs, hoff⟩
    | str xs =>
      rw [shown] at h
      rw [cutContents]
      obtain h | h := List.mem_cons.mp h
      · rw [Token.str.injEq] at h
        subst h
        by_cases he : s.elides xs = true
        · rw [if_pos he, if_pos he]
          exact .inr ⟨xs, by simp, _, rfl⟩
        · rw [if_neg he]
          exact .inl List.mem_cons_self
      · obtain h | ⟨zs, hzs, hoff⟩ := ih h
        · exact .inl (List.mem_cons_of_mem _ h)
        · exact .inr ⟨zs, List.mem_append_right _ hzs, hoff⟩

/-- A byte is shown as it is. -/
theorem byte_mem_shown {s : Scope} {ts : List Token} {b : UInt8} (h : .byte b ∈ s.shown ts) :
    .byte b ∈ ts := by
  induction ts generalizing s with
  | nil => exact absurd h List.not_mem_nil
  | cons t ts ih =>
    cases t with
    | byte c =>
      obtain h | h := List.mem_cons.mp h
      · rw [h]
        exact List.mem_cons_self
      · exact List.mem_cons_of_mem _ (ih h)
    | str xs =>
      obtain h | h := List.mem_cons.mp h
      · contradiction
      · exact List.mem_cons_of_mem _ (ih h)

/-- What is cut is a string of the line, and its frame is shown. -/
theorem mem_cutContents {s : Scope} {ts : List Token} {xs : List UInt8}
    (h : xs ∈ s.cutContents ts) :
    .str xs ∈ ts ∧ ∃ off, .str (lossy (frame off xs)) ∈ s.shown ts := by
  induction ts generalizing s with
  | nil => exact absurd h List.not_mem_nil
  | cons t ts ih =>
    cases t with
    | byte b =>
      obtain ⟨hmem, off, hshown⟩ := ih h
      exact ⟨List.mem_cons_of_mem _ hmem, off, List.mem_cons_of_mem _ hshown⟩
    | str ys =>
      rw [cutContents] at h
      rw [shown]
      obtain h | h := List.mem_append.mp h
      · split at h
        · next he =>
          obtain rfl := List.mem_singleton.mp h
          rw [if_pos he]
          exact ⟨List.mem_cons_self, _, List.mem_cons_self⟩
        · contradiction
      · obtain ⟨hmem, off, hshown⟩ := ih h
        exact ⟨List.mem_cons_of_mem _ hmem, off, List.mem_cons_of_mem _ hshown⟩

/-- Filler leaves the scope where it was. -/
theorem tokens_filler (s : Scope) {bs : List UInt8} (h : ∀ b ∈ bs, Filler b) :
    (s.tokens (bs.map .byte)).1 = { s with pos := s.pos + bs.length } := by
  have hafter := after_filler s h
  rw [after, copied, List.map_map] at hafter
  exact hafter

theorem tokens_blank (s : Scope) {bs : List UInt8} (h : ∀ b ∈ bs, isJsonBlank b = true) :
    (s.tokens (bs.map .byte)).1 = { s with pos := s.pos + bs.length } :=
  s.tokens_filler fun b hb => (textual_blank (h b hb)).1

theorem tokens_byte (s : Scope) (b : UInt8) :
    (s.tokens [.byte b]).1 = { s with pos := s.pos + 1 }.punct b := rfl

/-- A separator, if there is one, says what comes next. -/
theorem tokens_separator {s : Scope} {c : Ctx} {ctx : List Ctx} {sep : List UInt8}
    (hs : s.ctx = c :: ctx)
    (hsep : sep = [] ∧ s.expectingValue = (c == .array) ∨ sep = [0x2C]) :
    (s.tokens (sep.map .byte)).1.ctx = c :: ctx ∧
      (s.tokens (sep.map .byte)).1.expectingValue = (c == .array) := by
  obtain ⟨rfl, he⟩ | rfl := hsep
  · exact ⟨hs, he⟩
  · rw [List.map_singleton, tokens_byte]
    cases c <;> simp [punct, hs]

/-- A bracket opens a container, and the blanks after it. -/
theorem tokens_open (s : Scope) (c : Ctx) {blank : List UInt8}
    (h : ∀ b ∈ blank, isJsonBlank b = true) :
    (s.tokens ([.byte (if c = .array then 0x5B else 0x7B)] ++ blank.map .byte)).1.ctx =
        c :: s.ctx ∧
      (s.tokens ([.byte (if c = .array then 0x5B else 0x7B)] ++
        blank.map .byte)).1.expectingValue = (c == .array) := by
  rw [tokens_append, tokens_byte, tokens_blank _ h]
  cases c <;> simp [punct, openContainer]

theorem tokens_close {s : Scope} {c : Ctx} {ctx : List Ctx} (hs : s.ctx = c :: ctx) :
    (s.tokens [.byte (if c = .array then 0x5D else 0x7D)]).1.ctx = ctx := by
  rw [tokens_byte]
  cases c <;> simp [punct, closeContainer, hs]

end Scope

mutual

/-- **What is shown of a document** is a document of its shape, and the scanner stands
where it stood. -/
theorem Json.shown : ∀ {v : Json} {s : Scope}, v.Parses → s.expectingValue = true →
    ∃ w : Json, v.Elided w ∧ w.tokens = s.shown v.tokens ∧ (s.tokens v.tokens).1.ctx = s.ctx
  | .atom bs, s, hv, _ => by
    rw [Json.Parses] at hv
    refine ⟨.atom bs, by rw [Json.Elided], by rw [Json.tokens, Scope.shown_bytes], ?_⟩
    rw [Json.tokens, s.tokens_filler fun b hb => (printed_atom hv b hb).1.1]
  | .str xs, s, _, _ => by
    rw [Json.tokens]
    cases he : s.elides xs with
    | false => exact ⟨.str xs, by simp [Json.Elided], by simp [Json.tokens, Scope.shown, he], rfl⟩
    | true =>
      have hsize : elideStringBytes < xs.length := by
        simp only [Scope.elides, Bool.and_eq_true, decide_eq_true_eq] at he
        exact he.2
      refine ⟨.str (lossy (frame (s.lineStart + s.pos + 1) xs)), ?_, ?_, rfl⟩
      · rw [Json.Elided]
        exact .inr ⟨hsize, _, rfl⟩
      · simp [Json.tokens, Scope.shown, he]
  | .pad l v r, s, hv, he => by
    rw [Json.Parses] at hv
    obtain ⟨hl, hv, hr⟩ := hv
    have hleft := s.tokens_blank hl
    obtain ⟨w, hw, htokens, hctx⟩ :=
      @Json.shown v (s.tokens (l.map .byte)).1 hv (by rw [hleft]; exact he)
    refine ⟨.pad l w r, by rw [Json.Elided]; exact ⟨w, rfl, hw⟩, ?_, ?_⟩
    · simp only [Json.tokens, Scope.shown_append, Scope.shown_bytes, htokens]
    · simp only [Json.tokens, Scope.tokens_append]
      rw [Scope.tokens_blank _ hr]
      exact hctx.trans (by rw [hleft])
  | .array blank items, s, hv, _ => by
    rw [Json.Parses] at hv
    obtain ⟨hopen, he⟩ := s.tokens_open .array hv.1
    obtain ⟨items', hitems, htokens, hctx⟩ := Items.shown hv.2 hopen (.inl ⟨rfl, he⟩)
    refine ⟨.array blank items', by rw [Json.Elided]; exact ⟨items', rfl, hitems⟩, ?_, ?_⟩
    · simp only [Json.tokens, htokens]
      simp only [Scope.shown_append, Scope.shown_bytes]
      rfl
    · rw [Json.tokens, Scope.tokens_append]
      refine Scope.tokens_close (c := .array) ?_
      rw [Scope.tokens_append]
      exact hctx
  | .object blank members, s, hv, _ => by
    rw [Json.Parses] at hv
    obtain ⟨hopen, he⟩ := s.tokens_open .object hv.1
    obtain ⟨members', hmembers, htokens, hctx⟩ := Members.shown hv.2 hopen (.inl ⟨rfl, he⟩)
    refine ⟨.object blank members', by rw [Json.Elided]; exact ⟨members', rfl, hmembers⟩, ?_, ?_⟩
    · simp only [Json.tokens, htokens]
      simp only [Scope.shown_append, Scope.shown_bytes]
      rfl
    · rw [Json.tokens, Scope.tokens_append]
      refine Scope.tokens_close (c := .object) ?_
      rw [Scope.tokens_append]
      exact hctx

/-- The elements of an array. -/
theorem Items.shown : ∀ {items : Items} {s : Scope} {ctx : List Ctx} {sep : List UInt8},
    items.Parses → s.ctx = .array :: ctx →
    (sep = [] ∧ s.expectingValue = true ∨ sep = [0x2C]) →
    ∃ items' : Items, items.Elided items' ∧ items'.tokens sep = s.shown (items.tokens sep) ∧
      (s.tokens (items.tokens sep)).1.ctx = .array :: ctx
  | .nil, _, _, _, _, hs, _ => ⟨.nil, by rw [Items.Elided], rfl, hs⟩
  | .cons v rest, s, ctx, sep, h, hs, hsep => by
    rw [Items.Parses] at h
    obtain ⟨hctx₁, he₁⟩ := Scope.tokens_separator (c := .array) hs hsep
    obtain ⟨w, hw, htokens, hctx₂⟩ := Json.shown h.1 he₁
    rw [hctx₁] at hctx₂
    obtain ⟨rest', hrest, htokens', hctx₃⟩ := @Items.shown rest _ ctx [0x2C] h.2 hctx₂ (.inr rfl)
    refine ⟨.cons w rest', by rw [Items.Elided]; exact ⟨w, rest', rfl, hw, hrest⟩, ?_, ?_⟩
    · simp only [Items.tokens, Scope.shown_append, Scope.shown_bytes, Scope.tokens_append,
        htokens, htokens']
    · simpa only [Items.tokens, Scope.tokens_append] using hctx₃

/-- The members of an object: a key is not a value. -/
theorem Members.shown : ∀ {members : Members} {s : Scope} {ctx : List Ctx} {sep : List UInt8},
    members.Parses → s.ctx = .object :: ctx →
    (sep = [] ∧ s.expectingValue = false ∨ sep = [0x2C]) →
    ∃ members' : Members, members.Elided members' ∧
      members'.tokens sep = s.shown (members.tokens sep) ∧
      (s.tokens (members.tokens sep)).1.ctx = .object :: ctx
  | .nil, _, _, _, _, hs, _ => ⟨.nil, by rw [Members.Elided], rfl, hs⟩
  | .cons l k r v rest, s, ctx, sep, h, hs, hsep => by
    rw [Members.Parses] at h
    obtain ⟨hl, -, hr, hv, hrest⟩ := h
    obtain ⟨hctx₁, he₁⟩ := Scope.tokens_separator (c := .object) hs hsep
    let s₁ := (s.tokens (sep.map .byte)).1
    have hleft := s₁.tokens_blank hl
    have hkey : ∀ t : Scope, t.expectingValue = false → t.shown [.str k] = [.str k] := by
      intro t ht
      simp [Scope.shown, Scope.elides, ht]
    let s₂ := ((s₁.tokens (l.map .byte)).1.tokens [.str k]).1
    have hright := s₂.tokens_blank hr
    have hcolon : ((s₂.tokens (r.map .byte)).1.tokens [.byte 0x3A]).1.expectingValue = true ∧
        ((s₂.tokens (r.map .byte)).1.tokens [.byte 0x3A]).1.ctx = .object :: ctx := by
      rw [hright, Scope.tokens_byte]
      have hctx : s₂.ctx = .object :: ctx := by
        show (s₁.tokens (l.map .byte)).1.ctx = _
        rw [hleft]
        exact hctx₁
      simp [Scope.punct, hctx]
    obtain ⟨w, hw, htokens, hctx₂⟩ := Json.shown hv hcolon.1
    rw [hcolon.2] at hctx₂
    obtain ⟨rest', hrest', htokens', hctx₃⟩ :=
      @Members.shown rest _ ctx [0x2C] hrest hctx₂ (.inr rfl)
    refine ⟨.cons l k r w rest', ?_, ?_, ?_⟩
    · rw [Members.Elided]
      exact ⟨w, rest', rfl, hw, hrest'⟩
    · simp only [Members.tokens, Scope.shown_append, Scope.shown_bytes, Scope.tokens_append]
      rw [hkey _ (by show (s₁.tokens (l.map .byte)).1.expectingValue = _; rw [hleft]; exact he₁),
        htokens, htokens']
      rfl
    · simpa only [Members.tokens, Scope.tokens_append] using hctx₃

end

/-! ## when it parses -/

mutual

/-- A document of the shape of one that parses, if its strings do. -/
theorem Json.parses_of_elided : ∀ {v w : Json}, v.Parses → v.Elided w →
    (∀ xs, .str xs ∈ w.tokens → Content xs) → w.Parses
  | .atom bs, _, hv, h, _ => by
    rw [Json.Elided] at h
    rw [h]
    exact hv
  | .str xs, _, _, h, hstr => by
    rw [Json.Elided] at h
    obtain rfl | ⟨-, off, rfl⟩ := h
    · rw [Json.Parses]
      exact hstr _ (by simp [Json.tokens])
    · rw [Json.Parses]
      exact hstr _ (by simp [Json.tokens])
  | .pad l v r, _, hv, h, hstr => by
    rw [Json.Parses] at hv
    rw [Json.Elided] at h
    obtain ⟨w, rfl, hw⟩ := h
    have hparses := Json.parses_of_elided hv.2.1 hw fun xs hxs =>
      hstr xs (by simp [Json.tokens, hxs])
    rw [Json.Parses]
    exact ⟨hv.1, hparses, hv.2.2⟩
  | .array blank items, _, hv, h, hstr => by
    rw [Json.Parses] at hv
    rw [Json.Elided] at h
    obtain ⟨items', rfl, hitems⟩ := h
    have hparses := Items.parses_of_elided [] hv.2 hitems fun xs hxs =>
      hstr xs (by simp [Json.tokens, hxs])
    rw [Json.Parses]
    exact ⟨hv.1, hparses⟩
  | .object blank members, _, hv, h, hstr => by
    rw [Json.Parses] at hv
    rw [Json.Elided] at h
    obtain ⟨members', rfl, hmembers⟩ := h
    have hparses := Members.parses_of_elided [] hv.2 hmembers fun xs hxs =>
      hstr xs (by simp [Json.tokens, hxs])
    rw [Json.Parses]
    exact ⟨hv.1, hparses⟩

theorem Items.parses_of_elided : ∀ (sep : List UInt8) {items items' : Items}, items.Parses →
    items.Elided items' → (∀ xs, .str xs ∈ items'.tokens sep → Content xs) → items'.Parses
  | _, .nil, _, _, h, _ => by
    rw [Items.Elided] at h
    rw [h, Items.Parses]
    trivial
  | sep, .cons v rest, _, hv, h, hstr => by
    rw [Items.Parses] at hv
    rw [Items.Elided] at h
    obtain ⟨w, rest', rfl, hw, hrest⟩ := h
    have hparses := Json.parses_of_elided hv.1 hw fun xs hxs =>
      hstr xs (by simp [Items.tokens, hxs])
    have hparses' := Items.parses_of_elided [0x2C] hv.2 hrest fun xs hxs =>
      hstr xs (by simp [Items.tokens, hxs])
    rw [Items.Parses]
    exact ⟨hparses, hparses'⟩

theorem Members.parses_of_elided : ∀ (sep : List UInt8) {members members' : Members},
    members.Parses → members.Elided members' →
    (∀ xs, .str xs ∈ members'.tokens sep → Content xs) → members'.Parses
  | _, .nil, _, _, h, _ => by
    rw [Members.Elided] at h
    rw [h, Members.Parses]
    trivial
  | sep, .cons l k r v rest, _, hv, h, hstr => by
    rw [Members.Parses] at hv
    rw [Members.Elided] at h
    obtain ⟨w, rest', rfl, hw, hrest⟩ := h
    obtain ⟨hl, hk, hr, hvalue, hmembers⟩ := hv
    have hparses := Json.parses_of_elided hvalue hw fun xs hxs =>
      hstr xs (by simp [Members.tokens, hxs])
    have hparses' := Members.parses_of_elided [0x2C] hmembers hrest fun xs hxs =>
      hstr xs (by simp [Members.tokens, hxs])
    rw [Members.Parses]
    exact ⟨hl, hk, hr, hparses, hparses'⟩

end

/-- A whole content ends at the first quote that closes it. -/
theorem whole_cons_inj {xs ys as bs : List UInt8} (hx : Whole xs) (hy : Whole ys)
    (h : xs ++ quote :: as = ys ++ quote :: bs) : xs = ys ∧ as = bs := by
  have hopen : ∀ {xs ys zs : List UInt8}, Whole xs → Whole ys → ys ≠ xs ++ quote :: zs := by
    rintro xs ys zs hx hy rfl
    have hinside := hy.inside
    rw [Esc.inside_append, hx.ends] at hinside
    simp [Esc.inside, Esc.closes] at hinside
  obtain ⟨zs, hys, htail⟩ | ⟨zs, hxs, htail⟩ := List.append_eq_append_iff.mp h
  · cases zs with
    | nil =>
      rw [List.append_nil] at hys
      exact ⟨hys.symm, (List.cons.inj htail).2⟩
    | cons z zs =>
      obtain ⟨rfl, -⟩ := List.cons.inj htail
      exact absurd hys (hopen hx hy)
  · cases zs with
    | nil =>
      rw [List.append_nil] at hxs
      exact ⟨hxs, (List.cons.inj htail).2.symm⟩
    | cons z zs =>
      obtain ⟨rfl, -⟩ := List.cons.inj htail
      exact absurd hxs (hopen hy hx)

/-- **A text is one sequence of tokens.** -/
theorem renderTokens_inj {ts us : List Token} (hts : ∀ t ∈ ts, t.Valid) (hus : ∀ u ∈ us, u.Valid)
    (h : renderTokens ts = renderTokens us) : ts = us := by
  have hne : ∀ t : Token, ∀ rest, t.render ++ rest ≠ [] := by
    intro t rest
    cases t <;> simp [Token.render]
  induction ts generalizing us with
  | nil =>
    cases us with
    | nil => rfl
    | cons u us =>
      rw [renderTokens_cons] at h
      exact absurd h.symm (hne u _)
  | cons t ts ih =>
    cases us with
    | nil =>
      rw [renderTokens_cons] at h
      exact absurd h (hne t _)
    | cons u us =>
      obtain ⟨ht, hts'⟩ := List.forall_mem_cons.mp hts
      obtain ⟨hu, hus'⟩ := List.forall_mem_cons.mp hus
      rw [renderTokens_cons, renderTokens_cons] at h
      cases t with
      | byte b =>
        cases u with
        | byte c =>
          obtain ⟨rfl, hrest⟩ := List.cons.inj h
          rw [ih hts' hus' hrest]
        | str ys =>
          obtain ⟨rfl, -⟩ := List.cons.inj h
          exact absurd rfl ht
      | str xs =>
        cases u with
        | byte c =>
          obtain ⟨rfl, -⟩ := List.cons.inj h
          exact absurd rfl hu
        | str ys =>
          simp only [Token.render, List.cons_append, List.append_assoc, List.nil_append] at h
          obtain ⟨rfl, hrest⟩ := whole_cons_inj ht hu (List.cons.inj h).2
          rw [ih hts' hus' hrest]

/-! ## a line -/

/-- The scope of a line: one that is not scanned keeps everything. -/
def lineScope (off : Nat) (policy : Elision) (line : List UInt8) : Scope :=
  Scope.new off (if line.length ≤ scanThreshold then .none else policy)

/-- The string values of a document that are cut when its line is read. -/
def Json.cutValues (off : Nat) (policy : Elision) (ending : List UInt8) (v : Json) :
    List (List UInt8) :=
  (lineScope off policy (v.render ++ ending)).cutContents v.tokens

/-- Without a policy everything is written. -/
theorem Scope.tokens_none {s : Scope} (h : s.policy = .none) (ts : List Token) :
    (s.tokens ts).2 = renderTokens ts := by
  induction ts generalizing s with
  | nil => rfl
  | cons t ts ih =>
    have hpolicy := (s.token_frame t).2.2
    rw [tokens_cons, renderTokens_cons, ih (hpolicy.trans h)]
    cases t with
    | byte b => rfl
    | str xs => simp [token, str, elides, policyAllows, h, Token.render]

/-- The line handed on for a document. -/
theorem lineOut_tokens {v : Json} (hv : v.Parses) (off : Nat) (policy : Elision)
    {ending : List UInt8} (hend : quote ∉ ending) :
    lineOut off policy (v.render ++ ending) =
      ((lineScope off policy (v.render ++ ending)).tokens v.tokens).2 ++ ending := by
  unfold lineOut lineScope
  split
  · rw [Scope.tokens_none rfl, v.render_tokens]
  · have hbytes := renderTokens_bytes ending
    have hline : v.render ++ ending = renderTokens (v.tokens ++ ending.map .byte) := by
      rw [renderTokens_append, v.render_tokens, hbytes]
    have hvalid : ∀ t ∈ v.tokens ++ ending.map .byte, t.Valid := by
      intro t ht
      obtain ht | ht := List.mem_append.mp ht
      · exact (Json.properTokens hv t ht).valid
      · exact valid_bytes hend t ht
    obtain ⟨-, -, hout⟩ := feed_tokens (s := Elider.new off policy) rfl hvalid
    rw [scanned, hline, hout, Scope.tokens_append, (Scope.tokens_bytes _ ending).1]
    rfl

/-- A document holds something that is not blank. -/
theorem Json.solid : ∀ {v : Json}, v.Parses →
    ∃ t ∈ v.tokens, isAsciiWhitespace t.head = false
  | .atom bs, h => by
    rw [Json.Parses] at h
    obtain ⟨b, bs, rfl⟩ := List.exists_cons_of_ne_nil (atomText_ne_nil h)
    exact ⟨.byte b, by simp [Json.tokens], (printed_atom h b List.mem_cons_self).2⟩
  | .str xs, _ => ⟨.str xs, by simp [Json.tokens], show isAsciiWhitespace quote = false by decide⟩
  | .pad l v r, h => by
    rw [Json.Parses] at h
    obtain ⟨t, ht, hsolid⟩ := Json.solid h.2.1
    exact ⟨t, by simp [Json.tokens, ht], hsolid⟩
  | .array blank items, _ => ⟨.byte 0x5B, by simp [Json.tokens], by decide⟩
  | .object blank members, _ => ⟨.byte 0x7B, by simp [Json.tokens], by decide⟩

/-- The text of a document that parses, with the shape of the first one and its strings
but for those that are elided; a carriage return at its end is not part of the text. A fold
that reads numbers, literals and strings under some keys reads the same in both, unless one
of these strings is oversized. -/
def Json.Preserved (v : Json) (out : List UInt8) : Prop :=
  ∃ (w : Json) (cr : List UInt8), w.Parses ∧ v.Elided w ∧ (∀ b ∈ cr, b = 0x0D) ∧
    out ++ cr = w.render ∧
    (∀ ks, (w.path ks).bind Json.leaf = (v.path ks).bind Json.leaf) ∧
    ∀ ks, (∀ xs, (v.path ks).bind Json.text = some xs → xs.length ≤ elideStringBytes) →
      (w.path ks).bind Json.text = (v.path ks).bind Json.text

/-- **A text is a document that parses** if no cut in it splits a pair. -/
theorem preserved_iff {v : Json} (hv : v.Parses) {s : Scope} (he : s.expectingValue = true)
    {out cr : List UInt8} (hcr : ∀ b ∈ cr, b = 0x0D)
    (hout : out ++ cr = renderTokens (s.shown v.tokens)) :
    v.Preserved out ↔ ∀ xs ∈ s.cutContents v.tokens, splitsPair xs = false := by
  have hproper := Json.properTokens hv
  have hdecodes : ∀ xs ∈ s.cutContents v.tokens, (decode xs).isSome = true := fun xs hxs =>
    (hproper _ (Scope.mem_cutContents hxs).1).1
  obtain ⟨w, hw, htokens, -⟩ := Json.shown hv he
  constructor
  · rintro ⟨w', cr', hparses, -, hcr', hout', -, -⟩ xs hxs
    have hreturns : ∀ cs : List UInt8, (∀ b ∈ cs, b = 0x0D) → ProperTokens (cs.map .byte) := by
      intro cs hcs
      refine properTokens_bytes fun b hb => ?_
      rw [hcs b hb]
      decide
    have hshown : ∀ t ∈ s.shown v.tokens, t.Valid := by
      intro t ht
      cases t with
      | byte b => exact (hproper _ (Scope.byte_mem_shown ht)).valid
      | str ys =>
        obtain hmem | ⟨zs, hzs, off, rfl⟩ := Scope.str_mem_shown ht
        · exact (hproper _ hmem).valid
        · exact whole_frame (hdecodes zs hzs) off
    have hvalid : ∀ {ts : List Token} {cs : List UInt8}, (∀ t ∈ ts, t.Valid) →
        (∀ b ∈ cs, b = 0x0D) → ∀ t ∈ ts ++ cs.map .byte, t.Valid := by
      intro ts cs hts hcs t ht
      obtain ht | ht := List.mem_append.mp ht
      · exact hts t ht
      · exact (hreturns cs hcs t ht).valid
    -- the two texts are the same, up to carriage returns
    have hsame : renderTokens (s.shown v.tokens ++ cr'.map .byte) =
        renderTokens (w'.tokens ++ cr.map .byte) := by
      rw [renderTokens_append, renderTokens_append, renderTokens_bytes, renderTokens_bytes,
        w'.render_tokens, ← hout, ← hout', List.append_assoc, List.append_assoc,
        List.eq_replicate_of_mem hcr, List.eq_replicate_of_mem hcr',
        List.replicate_append_replicate, List.replicate_append_replicate, Nat.add_comm]
    have htoks := renderTokens_inj (hvalid hshown hcr')
      (hvalid (fun t ht => (Json.properTokens hparses t ht).valid) hcr) hsame
    obtain ⟨-, off, hframe⟩ := Scope.mem_cutContents hxs
    have hmem : Token.str (lossy (frame off xs)) ∈ w'.tokens := by
      have hin : Token.str (lossy (frame off xs)) ∈ w'.tokens ++ cr.map .byte := by
        rw [← htoks]
        exact List.mem_append_left _ hframe
      obtain hin | hin := List.mem_append.mp hin
      · exact hin
      · obtain ⟨b, -, hb⟩ := List.mem_map.mp hin
        contradiction
    exact (content_frame_iff (hdecodes xs hxs) off).mp (Json.properTokens hparses _ hmem)
  · intro hcuts
    have hparses : w.Parses := by
      refine Json.parses_of_elided hv hw fun ys hys => ?_
      rw [htokens] at hys
      obtain hmem | ⟨xs, hxs, off, rfl⟩ := Scope.str_mem_shown hys
      · exact hproper _ hmem
      · exact (content_frame_iff (hdecodes xs hxs) off).mpr (hcuts xs hxs)
    refine ⟨w, cr, hparses, hw, hcr, ?_, Json.leaf_path hw, Json.text_path hw⟩
    rw [hout, ← htokens, w.render_tokens]

/-- The body of a line is its text, without a carriage return at its end. -/
theorem stripNewline_line {raw ending : List UInt8} (hraw : newline ∉ raw)
    (hend : ending = [newline] ∨ ending = []) :
    ∃ cr : List UInt8, (∀ b ∈ cr, b = 0x0D) ∧ stripNewline (raw ++ ending) ++ cr = raw := by
  have hlast : raw.getLast? ≠ some newline := fun h => hraw (List.mem_of_getLast? h)
  have hcut : (if (raw ++ ending).getLast? = some newline then (raw ++ ending).dropLast
      else raw ++ ending) = raw := by
    obtain rfl | rfl := hend
    · simp
    · simp [hlast]
  unfold stripNewline
  rw [hcut]
  by_cases hcr : raw.getLast? = some 0x0D
  · refine ⟨[0x0D], by simp, ?_⟩
    simp only [hcr, if_true]
    obtain ⟨ys, rfl⟩ := List.getLast?_eq_some_iff.mp hcr
    rw [List.dropLast_concat]
  · refine ⟨[], by simp, ?_⟩
    simp only [hcr, if_false]
    exact List.append_nil raw

/-- **The line handed on for a document** is what is shown of it. -/
theorem next_document {s : LineSource} {v : Json} {ending rest : List UInt8} (hv : v.Parses)
    (hline : newline ∉ v.render) (hread : s.reader.flatten = v.render ++ ending ++ rest)
    (hend : ending = [newline] ∨ ending = [] ∧ rest = [] ∧ s.tail = .yield)
    (hfits : (lineOut s.offset s.policy (v.render ++ ending)).length ≤ elideCeiling) :
    ∃ out s' cr, s.next = (some (s.offset, out), s') ∧ (∀ b ∈ cr, b = 0x0D) ∧
      out ++ cr = renderTokens
        ((lineScope s.offset s.policy (v.render ++ ending)).shown v.tokens) := by
  have hproper := Json.properTokens hv
  have hends : ending = [newline] ∨ ending = [] := hend.imp id And.left
  have hout := @lineOut_tokens v hv s.offset s.policy ending (by
    obtain rfl | rfl := hends <;> decide)
  generalize hscope : lineScope s.offset s.policy (v.render ++ ending) = c at hout
  have hraw : newline ∉ (c.tokens v.tokens).2 := by
    intro hmem
    obtain hmem | hstep := Scope.mem_tokens hmem
    · rw [v.render_tokens] at hmem
      exact hline hmem
    · simp [Decoder.step, newline, backslash, quote] at hstep
  obtain ⟨cr, hcr, hstrip⟩ := stripNewline_line hraw hends
  -- it is not blank
  have hblank : trimmedLen (lineOut s.offset s.policy (v.render ++ ending)) ≠ 0 := by
    obtain ⟨t, ht, hsolid⟩ := Json.solid hv
    have hmem := Scope.head_mem_tokens (s := c) ht
    rw [← hstrip, List.mem_append] at hmem
    have hin := hmem.resolve_right fun h => by
      rw [hcr _ h] at hsolid
      exact absurd hsolid (by decide)
    rw [trimmedLen, hout, ← Nat.pos_iff_ne_zero, List.countP_pos_iff]
    exact ⟨t.head, hin, by rw [hsolid]; rfl⟩
  have hnext : ∃ s', s.next = (some (s.offset,
      LineSource.body (lineOut s.offset s.policy (v.render ++ ending))), s') := by
    obtain rfl | ⟨rfl, rfl, htail⟩ := hend
    · rw [List.append_assoc] at hread
      exact LineSource.next_line hline hread hfits hblank
    · rw [List.append_nil] at hfits ⊢
      rw [List.append_nil, List.append_nil] at hread
      refine LineSource.next_torn hline ?_ hread htail hfits ?_
      · intro hnil
        obtain ⟨t, ht, -⟩ := Json.solid hv
        have hlen : renderTokens v.tokens = [] := by rw [v.render_tokens, hnil]
        rw [renderTokens, List.flatMap_eq_nil_iff] at hlen
        have := hlen t ht
        cases t <;> simp [Token.render] at this
      · rw [← v.render_tokens, scanned]
        exact (feed_tokens (s := Elider.new s.offset s.policy) rfl
          fun t ht => (hproper t ht).valid).1
  obtain ⟨s', hs'⟩ := hnext
  refine ⟨_, s', cr, hs', hcr, ?_⟩
  have hbody : ∀ xs, LineSource.body xs = lossy (stripNewline xs) := by
    intro xs
    unfold LineSource.body
    split
    · next h => exact (Lib.Utf8.lossy_of_valid h).symm
    · rfl
  have hlossy := c.lossy_tokens hproper []
  rw [List.append_nil] at hlossy
  have hnil : lossy [] = [] := rfl
  rw [hnil, List.append_nil] at hlossy
  rw [hbody, hout, ← hlossy]
  conv_rhs => rw [← hstrip]
  obtain rfl | ⟨b, cr', rfl⟩ : cr = [] ∨ ∃ b cr', cr = b :: cr' := by
    cases cr <;> simp
  · rw [List.append_nil, List.append_nil]
  · have hascii : ∀ a ∈ b :: cr', a < 0x80 := by
      intro a ha
      rw [hcr a ha]
      decide
    have htail := Lib.Utf8.lossy_ascii_append hascii []
    rw [List.append_nil, hnil, List.append_nil,
      Lib.Utf8.lossy_cons_ascii (hascii b List.mem_cons_self)] at htail
    rw [Lib.Utf8.lossy_append_ascii _ (hascii b List.mem_cons_self), (List.cons.inj htail).2]

/-- **Elision and the document.** A line that is one JSON value, with a newline or at the
end of the file, is handed on as a value of the same shape that parses, with the same keys,
numbers and literals and the same strings but for the elided ones, exactly if no cut in an
elided string splits a surrogate pair. Only oversized strings are elided. -/
theorem elided_parses_iff {s : LineSource} {v : Json} {ending rest : List UInt8} (hv : v.Parses)
    (hline : newline ∉ v.render) (hread : s.reader.flatten = v.render ++ ending ++ rest)
    (hend : ending = [newline] ∨ ending = [] ∧ rest = [] ∧ s.tail = .yield)
    (hfits : (lineOut s.offset s.policy (v.render ++ ending)).length ≤ elideCeiling) :
    ∃ out s', s.next = (some (s.offset, out), s') ∧
      (v.Preserved out ↔ ∀ xs ∈ v.cutValues s.offset s.policy ending, splitsPair xs = false) := by
  obtain ⟨out, s', cr, hnext, hcr, hout⟩ := next_document hv hline hread hend hfits
  exact ⟨out, s', hnext, preserved_iff hv rfl hcr hout⟩

/-! ## values that are cut -/

/-- A frame is short. -/
theorem frame_length {off : Nat} {xs : List UInt8} (hfit : off + xs.length < 2 ^ 64)
    (hlen : prefixKeep ≤ xs.length) : (frame off xs).length ≤ 500 := by
  have hhead := headCut_le xs
  have htail : xs.length - ringCap ≤ tailCut xs := Nat.le_add_right _ _
  have hbounds : prefixKeep = 64 ∧ ringCap = 70 := ⟨rfl, rfl⟩
  have hcut := decimal_length (n := off + headCut xs) (by omega)
  have hdropped := decimal_length (n := dropped xs) (by
    have := tailOverhang_le xs
    unfold dropped tailCut
    omega)
  simp only [frame, marker, markerOpener, List.length_append, List.length_cons, List.length_nil,
    List.length_take, List.length_drop]
  omega

/-- A line that is one string. -/
def strSource (xs : List UInt8) : LineSource :=
  LineSource.new [(Json.str xs).render ++ [newline]] 0 .stop .aggressive

theorem strSource_reads {xs : List UInt8} (hxs : Content xs) (hline : newline ∉ xs)
    (hlong : scanThreshold ≤ xs.length) (hfit : xs.length < 2 ^ 60) :
    (Json.str xs).Parses ∧ newline ∉ (Json.str xs).render ∧
      (strSource xs).reader.flatten = (Json.str xs).render ++ [newline] ++ [] ∧
      (lineOut 0 .aggressive ((Json.str xs).render ++ [newline])).length ≤ elideCeiling ∧
      (Json.str xs).cutValues 0 .aggressive [newline] = [xs] := by
  have hsize : elideStringBytes < xs.length := Nat.lt_of_lt_of_le (by decide) hlong
  have hparses : (Json.str xs).Parses := by
    rw [Json.Parses]
    exact hxs
  have hrender : (Json.str xs).render = quote :: xs ++ [quote] := by rw [Json.render]
  have hlength : ((Json.str xs).render ++ [newline]).length = xs.length + 3 := by
    simp [hrender]
  refine ⟨hparses, ?_, by simp [strSource, LineSource.new], ?_, ?_⟩
  · rw [hrender]
    intro hmem
    simp only [List.mem_append, List.mem_cons] at hmem
    obtain (h | h) | h := hmem
    · exact absurd h (by decide)
    · exact hline h
    · exact absurd h (by simp [newline, quote])
  · have hline : (Json.str xs).render ++ [newline] = quote :: xs ++ quote :: [newline] := by
      simp [hrender]
    have hout := (@lineOut_value xs [newline] hxs.whole hsize (by decide) (by
      rw [List.length_singleton]
      omega)).1
    have hframe := @frame_length 1 xs (by omega) (by
      exact Nat.le_of_lt (Nat.lt_trans (by decide) hsize))
    have hbound : 600 ≤ elideCeiling := by decide
    rw [hline, hout]
    simp only [List.length_append, List.length_cons, List.length_nil]
    omega
  · have helides : (Scope.new 0 .aggressive).elides xs = true := by
      simp [Scope.elides, Scope.new, Scope.policyAllows, hsize]
    unfold Json.cutValues lineScope
    rw [if_neg (by rw [hlength]; omega)]
    simp [Json.tokens, Scope.cutContents, helides]

theorem content_letters (n : Nat) : Content (letters n) := by
  constructor
  · rw [decode_letters]
    rfl
  · exact valid_letters n

theorem newline_letters (n : Nat) : newline ∉ letters n :=
  fun h => absurd (mem_letters h) (by decide)

/-- No cut splits a pair in letters. -/
theorem splitsPair_letters (n : Nat) : splitsPair (letters n) = false := by
  have hcuts : ∀ k, cutsPair (letters n) k = false := by
    intro k
    have htake : (letters n).take k = letters (min k n) := List.take_replicate
    have hreach := (Decoder.run_isSome .plain (letters (min k n))).mp (content_letters _).1
    rw [cutsPair, htake, hreach]
  rw [splitsPair, hcuts, hcuts]
  rfl

/-- A line of 300000 letters. -/
theorem elided_parses_letters : ∃ out s', (strSource (letters 300000)).next = (some (0, out), s') ∧
    (Json.str (letters 300000)).Preserved out := by
  have hlen : (letters 300000).length = 300000 := List.length_replicate
  obtain ⟨hparses, hline, hread, hfits, hcuts⟩ := strSource_reads (content_letters 300000)
    (newline_letters _) (by rw [hlen]; decide) (by rw [hlen]; decide)
  obtain ⟨out, s', hnext, hiff⟩ := elided_parses_iff (s := strSource (letters 300000)) hparses
    hline hread (.inl rfl) hfits
  refine ⟨out, s', hnext, hiff.mpr ?_⟩
  intro xs hxs
  rw [strSource, LineSource.new, hcuts] at hxs
  rw [List.mem_singleton.mp hxs]
  exact splitsPair_letters _

/-- Letters up to the sixth byte before the cut, and an astral character as two escapes. -/
def pairHead : List UInt8 :=
  letters 58 ++ [0x5C, 0x75, 0x44, 0x38, 0x33, 0x44, 0x5C, 0x75, 0x44, 0x45, 0x30, 0x30]

/-- A value that begins so. -/
def pairValue (n : Nat) : List UInt8 := pairHead ++ letters n

theorem content_pairValue (n : Nat) : Content (pairValue n) := by
  have hhead : Decoder.plain.reach pairHead = some .plain := by decide
  have hletters := (Decoder.run_isSome .plain (letters n)).mp (content_letters n).1
  constructor
  · refine (Decoder.run_isSome .plain _).mpr ?_
    rw [pairValue, Decoder.reach_append, hhead]
    exact hletters
  · have hall : pairHead.all (fun b => decide (b < 0x80)) = true := by decide
    refine Lib.Utf8.valid_ascii fun b hb => ?_
    obtain hb | hb := List.mem_append.mp hb
    · exact of_decide_eq_true (List.all_eq_true.mp hall b hb)
    · rw [mem_letters hb]
      decide

/-- Its head is cut between the two escapes. -/
theorem splitsPair_pairValue (n : Nat) : splitsPair (pairValue n) = true := by
  have hhead : headCut (pairValue n) = 64 := by
    rw [pairValue, headCut_append (by decide)]
    decide +kernel
  have htake : (pairValue n).take 64 = pairHead.take 64 :=
    List.take_append_of_le_length (by decide)
  have hreach : Decoder.plain.reach (pairHead.take 64) = some (.high 0xD83D) := by decide
  rw [splitsPair, hhead, cutsPair, htake, hreach]
  rfl

/-- **A line that no longer parses**: the cut leaves half a surrogate pair. -/
theorem pair_split_lost : (Json.str (pairValue 300000)).Parses ∧
    ∃ out s', (strSource (pairValue 300000)).next = (some (0, out), s') ∧
      ¬(Json.str (pairValue 300000)).Preserved out := by
  have hlen : (pairValue 300000).length = 300070 := by
    rw [pairValue, List.length_append, letters, List.length_replicate]
    rfl
  have hline : newline ∉ pairValue 300000 := by
    intro h
    obtain h | h := List.mem_append.mp h
    · exact absurd h (by decide)
    · exact newline_letters _ h
  obtain ⟨hparses, hline, hread, hfits, hcuts⟩ := strSource_reads (content_pairValue 300000) hline
    (by rw [hlen]; decide) (by rw [hlen]; decide)
  obtain ⟨out, s', cr, hnext, hcr, hout⟩ := next_document (s := strSource (pairValue 300000))
    hparses hline hread (.inl rfl) hfits
  refine ⟨hparses, out, s', hnext, fun hpreserved => ?_⟩
  have hsplit := (preserved_iff hparses rfl hcr hout).mp hpreserved (pairValue 300000) (by
    show _ ∈ (Json.str _).cutValues 0 .aggressive [newline]
    rw [hcuts]
    exact List.mem_singleton_self _)
  rw [splitsPair_pairValue] at hsplit
  simp at hsplit

/-- A line with an id. -/
def idLine (xs : List UInt8) : Json := .object [] (.cons [] [0x69, 0x64] [] (.str xs) .nil)

theorem render_idLine (xs : List UInt8) : (idLine xs).render =
    [0x7B, quote, 0x69, 0x64, quote, 0x3A, quote] ++ xs ++ [quote, 0x7D] := by
  simp [idLine, Json.render, Members.render]

theorem parses_idLine {xs : List UInt8} (hxs : Content xs) : (idLine xs).Parses := by
  have hkey : Content [0x69, 0x64] := ⟨by decide, by decide⟩
  simp only [idLine, Json.Parses, Members.Parses]
  exact ⟨nofun, nofun, hkey, nofun, hxs, trivial⟩

/-- An oversized id is framed. -/
theorem shown_idLine (off : Nat) {xs : List UInt8} (hsize : elideStringBytes < xs.length) :
    (Scope.new off .aggressive).shown (idLine xs).tokens =
        (idLine (lossy (frame (off + 7) xs))).tokens ∧
      ((Scope.new off .aggressive).tokens (idLine xs).tokens).2 =
        (idLine (frame (off + 7) xs)).render := by
  have hshown : (Scope.new off .aggressive).shown (idLine xs).tokens = (idLine (if decide
      (elideStringBytes < xs.length) then lossy (frame (off + 7) xs) else xs)).tokens := rfl
  have htokens : ((Scope.new off .aggressive).tokens (idLine xs).tokens).2 =
      [0x7B] ++ ([quote] ++ [0x69, 0x64] ++ [quote] ++ ([0x3A] ++ ([quote] ++ (if decide
        (elideStringBytes < xs.length) then frame (off + 7) xs else xs) ++ [quote] ++
          ([0x7D] ++ [])))) := rfl
  rw [hshown, htokens, if_pos (decide_eq_true hsize), if_pos (decide_eq_true hsize), render_idLine]
  exact ⟨rfl, by simp⟩

/-- A line with an id of letters, as the source at its start hands it on. -/
theorem next_idLine (off : Nat) {n : Nat} (hn : scanThreshold ≤ n) (hfit : n < 2 ^ 64)
    (hoff : off + 7 + prefixKeep < 2 ^ 64) :
    ∃ out s', (LineSource.new [(idLine (letters n)).render ++ [newline]] off .stop
        .aggressive).next = (some (off, out), s') ∧
      out = (idLine (lossy (frame (off + 7) (letters n)))).render ∧
      (idLine (lossy (frame (off + 7) (letters n)))).Parses := by
  have hlen : (letters n).length = n := List.length_replicate
  have hsize : elideStringBytes < n := Nat.lt_of_lt_of_le (by decide) hn
  obtain ⟨hshown, htokens⟩ := shown_idLine off (hlen.symm ▸ hsize)
  have hparses := parses_idLine (content_letters n)
  have hscope : lineScope off .aggressive ((idLine (letters n)).render ++ [newline]) =
      Scope.new off .aggressive := by
    rw [lineScope, if_neg]
    rw [render_idLine]
    simp only [List.length_append, List.length_cons, List.length_nil, hlen]
    omega
  have hline : newline ∉ (idLine (letters n)).render := by
    rw [render_idLine]
    intro h
    simp only [List.mem_append] at h
    obtain (h | h) | h := h
    · exact absurd h (by decide)
    · exact newline_letters _ h
    · exact absurd h (by decide)
  obtain ⟨out, s', cr, hnext, hcr, hout⟩ := @next_document
    (.new [(idLine (letters n)).render ++ [newline]] off .stop .aggressive) _ [newline] [] hparses
    hline (by simp [LineSource.new]) (.inl rfl) (by
      have hframe := frame_letters_length hsize hfit (off + 7) hoff
      have hbound : 600 ≤ elideCeiling := by decide
      have hlineOut := @lineOut_tokens _ hparses off .aggressive [newline] (by decide)
      rw [hscope, htokens] at hlineOut
      show (lineOut off .aggressive _).length ≤ _
      rw [hlineOut, render_idLine]
      simp only [List.length_append, List.length_cons, List.length_nil]
      omega)
  refine ⟨out, s', hnext, ?_, parses_idLine ((content_frame_iff (content_letters n).1
    (off + 7)).mpr (splitsPair_letters n))⟩
  have hends : out ++ cr = (idLine (lossy (frame (off + 7) (letters n)))).render := by
    rw [← Json.render_tokens, ← hshown, ← hscope]
    exact hout
  -- a text that ends with a brace ends with no return
  obtain rfl | ⟨cr, b, rfl⟩ := List.eq_nil_or_concat cr
  · rw [← hends, List.append_nil]
  · have hlast : out ++ cr ++ [b] = [0x7B, quote, 0x69, 0x64, quote, 0x3A, quote] ++
        lossy (frame (off + 7) (letters n)) ++ [quote] ++ [0x7D] := by
      rw [render_idLine] at hends
      simpa using hends
    obtain rfl := List.singleton_inj.mp (List.append_inj' hlast rfl).2
    exact absurd (hcr 0x7D (by simp)) (by decide)

/-- **What elision does not preserve**: an oversized id, by its rule, so that two lines which
share one are handed on with two; and a document that it cuts inside a surrogate pair. -/
theorem elision_departs : (∃ out₁ s₁ out₂ s₂ ys zs,
    (LineSource.new [(idLine (letters 300000)).render ++ [newline]] 0 .stop .aggressive).next =
      (some (0, out₁), s₁) ∧
    (LineSource.new [(idLine (letters 300000)).render ++ [newline]] 300010 .stop .aggressive).next =
      (some (300010, out₂), s₂) ∧
    out₁ = (idLine ys).render ∧ out₂ = (idLine zs).render ∧ (idLine ys).Parses ∧
    (idLine zs).Parses ∧ decode ys ≠ decode zs) ∧
    ∃ out s', (strSource (pairValue 300000)).next = (some (0, out), s') ∧
      ¬(Json.str (pairValue 300000)).Preserved out := by
  refine ⟨?_, pair_split_lost.2⟩
  obtain ⟨out₁, s₁, hnext₁, hout₁, hparses₁⟩ := @next_idLine 0 300000 (by decide) (by decide)
    (by decide)
  obtain ⟨out₂, s₂, hnext₂, hout₂, hparses₂⟩ := @next_idLine 300010 300000 (by decide) (by decide)
    (by decide)
  refine ⟨out₁, s₁, out₂, s₂, _, _, hnext₁, hnext₂, hout₁, hout₂, hparses₁, hparses₂, ?_⟩
  rw [decode_frame_letters (by decide), decode_frame_letters (by decide)]
  intro h
  -- the two markers name two places
  have hmarker := List.append_cancel_left (List.append_cancel_right (Option.some.inj h))
  rw [marker_eq, marker_eq, markerRest, markerRest] at hmarker
  have hrest := List.append_cancel_right (List.cons.inj hmarker).2
  have hplace := List.append_cancel_left (List.append_cancel_right (List.append_cancel_right hrest))
  exact absurd hplace (by decide)

end ClaudeReplay
