import ClaudeReplay.Mask.Content
import Mathlib.Data.List.Forall2

/-!
# ClaudeReplay.Mask.Document

Masking JSON records. The masker reads no JSON: it goes from quote to quote. On the text of
documents that parse it finds their strings, so what it writes is the text of the documents
with every string masked, the names of members included (`maskJsonBytes_lines`). The
documents are kept exactly if no name holds a secret (`maskJsonBytes_keeps`).
-/

namespace ClaudeReplay

open Lib (quote backslash letterU Esc Decoder Overlaid decode)
open Lib.Utf8 (valid)
open Mask (maskString maskJson maskJsonBytes stringEnd starByte)

/-! ## tokens -/

/-- The token with its string masked. -/
def Token.masked : Token → Token
  | .str xs => .str (maskString xs).1
  | .byte b => .byte b

namespace Mask

/-- The string ends at its quote. -/
theorem stringEnd_formed {e : Esc} {xs : List UInt8} (hformed : e.formed xs = true)
    (hinside : e.inside xs = true) (ys : List UInt8) :
    stringEnd (e == .slash) (xs ++ quote :: ys) = xs.length := by
  induction xs generalizing e with
  | nil =>
    rw [Esc.formed, beq_iff_eq] at hformed
    subst hformed
    rfl
  | cons b xs ih =>
    rw [Esc.formed_cons] at hformed
    rw [Esc.inside, Bool.and_eq_true, Bool.not_eq_true'] at hinside
    have hrest := ih hformed.2 hinside.2
    rw [List.length_cons, Nat.add_comm, ← hrest]
    cases e with
    | plain =>
      have hb : (b == quote) = false := by simpa [Esc.closes] using hinside.1
      have hslash : (Esc.plain.step b == .slash) = (b == backslash) := by
        by_cases hb : b = backslash <;> simp [Esc.step, hb]
      show (if b == quote then 0 else 1 + stringEnd (b == backslash) _) = _
      rw [hb, hslash]
      rfl
    | slash =>
      have hslash : (Esc.slash.step b == .slash) = false := by
        by_cases hb : b = letterU <;> simp [Esc.step, hb]
      rw [hslash]
      rfl
    | hex n =>
      have hhex : isHex b = true := (isHex_eq b).trans hformed.1
      have hquote : (b == quote) = false := beq_false_of_ne (isHex_ne hhex (by decide))
      have hback : (b == backslash) = false := beq_false_of_ne (isHex_ne hhex (by decide))
      have hslash : ((Esc.hex n).step b == .slash) = false := by cases n <;> rfl
      show (if b == quote then 0 else 1 + stringEnd (b == backslash) _) = _
      rw [hquote, hback, hslash]
      rfl

/-- **What the masker makes of tokens.** -/
theorem maskJson_tokens {ts : List Token} (hts : ProperTokens ts) {fuel : Nat}
    (hfuel : (renderTokens ts).length ≤ fuel) :
    (maskJson fuel (renderTokens ts)).1 = renderTokens (ts.map Token.masked) := by
  induction ts generalizing fuel with
  | nil => cases fuel <;> rfl
  | cons t ts ih =>
    obtain ⟨ht, hrest⟩ := List.forall_mem_cons.mp hts
    rw [renderTokens_cons, List.length_append] at hfuel
    rw [renderTokens_cons, List.map_cons, renderTokens_cons]
    cases t with
    | byte b =>
      have hquote : (b != quote) = true := bne_iff_ne.mpr ht.1
      cases fuel with
      | zero => simp [Token.render] at hfuel
      | succ fuel =>
        have hlen : (renderTokens ts).length ≤ fuel := by
          simp only [Token.render, List.length_singleton] at hfuel
          omega
        show (maskJson (fuel + 1) (b :: renderTokens ts)).1 = b :: _
        rw [maskJson, if_pos hquote]
        exact congrArg (b :: ·) (ih hrest hlen)
    | str xs =>
      have hformed : Esc.plain.formed xs = true :=
        Decoder.reach_formed ((Decoder.run_isSome .plain xs).mp ht.1)
      have hend := stringEnd_formed hformed (Content.whole ht).inside (renderTokens ts)
      cases fuel with
      | zero => simp [Token.render] at hfuel
      | succ fuel =>
        have hlen : (renderTokens ts).length ≤ fuel := by
          simp only [Token.render, List.length_append, List.length_cons] at hfuel
          omega
        have htext : (Token.str xs).render ++ renderTokens ts =
            quote :: (xs ++ quote :: renderTokens ts) := by simp [Token.render]
        have hskip : (Esc.plain == .slash) = false := rfl
        rw [hskip] at hend
        rw [htext, maskJson, if_neg (by decide)]
        simp only [hend, List.take_left, List.drop_left, ih hrest hlen]
        simp [Token.render, Token.masked]

end Mask

/-- Masking keeps the length. -/
theorem renderTokens_masked_length {ts : List Token} (h : ProperTokens ts) :
    (renderTokens (ts.map Token.masked)).length = (renderTokens ts).length := by
  induction ts with
  | nil => rfl
  | cons t ts ih =>
    obtain ⟨ht, hrest⟩ := List.forall_mem_cons.mp h
    have hone : t.masked.render.length = t.render.length := by
      cases t with
      | str xs => simp [Token.masked, Token.render, (Mask.maskString_overlaid ht).length_eq]
      | byte b => rfl
    rw [List.map_cons, renderTokens_cons, renderTokens_cons, List.length_append,
      List.length_append, hone, ih hrest]

/-! ## documents -/

mutual

/-- The document with its strings masked, the names of members too. -/
def Json.masked : Json → Json
  | .atom bs => .atom bs
  | .str xs => .str (maskString xs).1
  | .pad l v r => .pad l v.masked r
  | .array blank items => .array blank items.masked
  | .object blank members => .object blank members.masked

/-- Element by element. -/
def Items.masked : Items → Items
  | .nil => .nil
  | .cons v rest => .cons v.masked rest.masked

/-- Member by member. -/
def Members.masked : Members → Members
  | .nil => .nil
  | .cons l k r v rest => .cons l (maskString k).1 r v.masked rest.masked

end

mutual

/-- The names in a document. -/
def Json.names : Json → List (List UInt8)
  | .atom _ | .str _ => []
  | .pad _ v _ => v.names
  | .array _ items => items.names
  | .object _ members => members.names

/-- Those in the elements. -/
def Items.names : Items → List (List UInt8)
  | .nil => []
  | .cons v rest => v.names ++ rest.names

/-- Those of the members, and in them. -/
def Members.names : Members → List (List UInt8)
  | .nil => []
  | .cons _ k _ v rest => k :: (v.names ++ rest.names)

end

mutual

/-- The second document is the first, but for bytes of string values that have become stars:
bytes in ASCII that belong to no escape. -/
def Json.Kept : Json → Json → Prop
  | .atom bs, w => w = .atom bs
  | .str xs, w => ∃ ys, w = .str ys ∧ Overlaid starByte .plain xs ys
  | .pad l v r, w => ∃ v', w = .pad l v' r ∧ v.Kept v'
  | .array blank items, w => ∃ items', w = .array blank items' ∧ items.Kept items'
  | .object blank members, w => ∃ members', w = .object blank members' ∧ members.Kept members'

/-- Element by element. -/
def Items.Kept : Items → Items → Prop
  | .nil, w => w = .nil
  | .cons v rest, w => ∃ v' rest', w = .cons v' rest' ∧ v.Kept v' ∧ rest.Kept rest'

/-- Member by member, under the same names. -/
def Members.Kept : Members → Members → Prop
  | .nil, w => w = .nil
  | .cons l k r v rest, w =>
    ∃ v' rest', w = .cons l k r v' rest' ∧ v.Kept v' ∧ rest.Kept rest'

end

theorem map_masked_bytes (bs : List UInt8) :
    (bs.map Token.byte).map Token.masked = bs.map .byte := by
  rw [List.map_map]
  rfl

mutual

theorem Json.tokens_masked : ∀ v : Json, v.masked.tokens = v.tokens.map Token.masked
  | .atom bs => by simp only [Json.masked, Json.tokens, map_masked_bytes]
  | .str xs => rfl
  | .pad l v r => by
    simp only [Json.masked, Json.tokens, List.map_append, map_masked_bytes, v.tokens_masked]
  | .array blank items => by
    simp only [Json.masked, Json.tokens, List.map_append, map_masked_bytes,
      items.tokens_masked []]
    rfl
  | .object blank members => by
    simp only [Json.masked, Json.tokens, List.map_append, map_masked_bytes,
      members.tokens_masked []]
    rfl

theorem Items.tokens_masked (sep : List UInt8) :
    ∀ items : Items, items.masked.tokens sep = (items.tokens sep).map Token.masked
  | .nil => rfl
  | .cons v rest => by
    simp only [Items.masked, Items.tokens, List.map_append, map_masked_bytes, v.tokens_masked,
      rest.tokens_masked [0x2C]]

theorem Members.tokens_masked (sep : List UInt8) :
    ∀ members : Members, members.masked.tokens sep = (members.tokens sep).map Token.masked
  | .nil => rfl
  | .cons l k r v rest => by
    simp only [Members.masked, Members.tokens, List.map_append, map_masked_bytes, v.tokens_masked,
      rest.tokens_masked [0x2C]]
    rfl

end

mutual

/-- **A document that is masked parses.** -/
theorem Json.parses_masked : ∀ {v : Json}, v.Parses → v.masked.Parses
  | .atom bs, h => by
    rw [Json.Parses] at h
    rwa [Json.masked, Json.Parses]
  | .str xs, h => by
    rw [Json.Parses] at h
    rw [Json.masked, Json.Parses]
    exact Mask.content_overlaid h (Mask.maskString_overlaid h)
  | .pad l v r, h => by
    rw [Json.Parses] at h
    rw [Json.masked, Json.Parses]
    exact ⟨h.1, Json.parses_masked h.2.1, h.2.2⟩
  | .array blank items, h => by
    rw [Json.Parses] at h
    rw [Json.masked, Json.Parses]
    exact ⟨h.1, Items.parses_masked h.2⟩
  | .object blank members, h => by
    rw [Json.Parses] at h
    rw [Json.masked, Json.Parses]
    exact ⟨h.1, Members.parses_masked h.2⟩

theorem Items.parses_masked : ∀ {items : Items}, items.Parses → items.masked.Parses
  | .nil, _ => trivial
  | .cons v rest, h => by
    rw [Items.Parses] at h
    rw [Items.masked, Items.Parses]
    exact ⟨Json.parses_masked h.1, Items.parses_masked h.2⟩

theorem Members.parses_masked : ∀ {members : Members}, members.Parses → members.masked.Parses
  | .nil, _ => trivial
  | .cons l k r v rest, h => by
    rw [Members.Parses] at h
    obtain ⟨hl, hk, hr, hv, hrest⟩ := h
    rw [Members.masked, Members.Parses]
    exact ⟨hl, Mask.content_overlaid hk (Mask.maskString_overlaid hk), hr,
      Json.parses_masked hv, Members.parses_masked hrest⟩

end

mutual

/-- It is the document it was, if no name has changed. -/
theorem Json.kept_masked : ∀ {v : Json}, v.Parses → (∀ k ∈ v.names, (maskString k).1 = k) →
    v.Kept v.masked
  | .atom bs, _, _ => by rw [Json.Kept, Json.masked]
  | .str xs, h, _ => by
    rw [Json.Parses] at h
    rw [Json.Kept, Json.masked]
    exact ⟨_, rfl, Mask.maskString_overlaid h⟩
  | .pad l v r, h, hnames => by
    rw [Json.Parses] at h
    rw [Json.Kept, Json.masked]
    exact ⟨_, rfl, Json.kept_masked h.2.1 hnames⟩
  | .array blank items, h, hnames => by
    rw [Json.Parses] at h
    rw [Json.Kept, Json.masked]
    exact ⟨_, rfl, Items.kept_masked h.2 hnames⟩
  | .object blank members, h, hnames => by
    rw [Json.Parses] at h
    rw [Json.Kept, Json.masked]
    exact ⟨_, rfl, Members.kept_masked h.2 hnames⟩

theorem Items.kept_masked : ∀ {items : Items}, items.Parses →
    (∀ k ∈ items.names, (maskString k).1 = k) → items.Kept items.masked
  | .nil, _, _ => by rw [Items.Kept, Items.masked]
  | .cons v rest, h, hnames => by
    rw [Items.Parses] at h
    rw [Items.names, List.forall_mem_append] at hnames
    rw [Items.Kept, Items.masked]
    exact ⟨_, _, rfl, Json.kept_masked h.1 hnames.1, Items.kept_masked h.2 hnames.2⟩

theorem Members.kept_masked : ∀ {members : Members}, members.Parses →
    (∀ k ∈ members.names, (maskString k).1 = k) → members.Kept members.masked
  | .nil, _, _ => by rw [Members.Kept, Members.masked]
  | .cons l k r v rest, h, hnames => by
    rw [Members.Parses] at h
    obtain ⟨-, -, -, hv, hrest⟩ := h
    rw [Members.names, List.forall_mem_cons, List.forall_mem_append] at hnames
    rw [Members.Kept, Members.masked, hnames.1]
    exact ⟨_, _, rfl, Json.kept_masked hv hnames.2.1, Members.kept_masked hrest hnames.2.2⟩

end

mutual

/-- **Where the masked text is that of the document as it was, no name has changed.** -/
theorem Json.names_masked : ∀ {v w : Json} {ts us : List Token}, v.Kept w →
    w.tokens ++ ts = v.masked.tokens ++ us → (∀ k ∈ v.names, (maskString k).1 = k) ∧ ts = us
  | .atom bs, w, ts, us, h, heq => by
    rw [Json.Kept] at h
    subst h
    rw [Json.masked, List.append_right_inj] at heq
    exact ⟨fun k hk => (nomatch hk), heq⟩
  | .str xs, w, ts, us, h, heq => by
    rw [Json.Kept] at h
    obtain ⟨ys, rfl, -⟩ := h
    exact ⟨fun k hk => (nomatch hk), (List.cons.inj heq).2⟩
  | .pad l v r, w, ts, us, h, heq => by
    rw [Json.Kept] at h
    obtain ⟨v', rfl, hv⟩ := h
    simp only [Json.masked, Json.tokens, List.append_assoc, List.append_right_inj] at heq
    obtain ⟨hnames, hrest⟩ := Json.names_masked hv heq
    exact ⟨hnames, List.append_cancel_left hrest⟩
  | .array blank items, w, ts, us, h, heq => by
    rw [Json.Kept] at h
    obtain ⟨items', rfl, hitems⟩ := h
    simp only [Json.masked, Json.tokens, List.append_assoc, List.append_right_inj] at heq
    obtain ⟨hnames, hrest⟩ := Items.names_masked hitems heq
    exact ⟨hnames, List.append_cancel_left hrest⟩
  | .object blank members, w, ts, us, h, heq => by
    rw [Json.Kept] at h
    obtain ⟨members', rfl, hmembers⟩ := h
    simp only [Json.masked, Json.tokens, List.append_assoc, List.append_right_inj] at heq
    obtain ⟨hnames, hrest⟩ := Members.names_masked hmembers heq
    exact ⟨hnames, List.append_cancel_left hrest⟩

theorem Items.names_masked : ∀ {items items' : Items} {sep : List UInt8} {ts us : List Token},
    items.Kept items' → items'.tokens sep ++ ts = items.masked.tokens sep ++ us →
    (∀ k ∈ items.names, (maskString k).1 = k) ∧ ts = us
  | .nil, items', sep, ts, us, h, heq => by
    rw [Items.Kept] at h
    subst h
    exact ⟨fun k hk => (nomatch hk), heq⟩
  | .cons v rest, items', sep, ts, us, h, heq => by
    rw [Items.Kept] at h
    obtain ⟨v', rest', rfl, hv, hrest⟩ := h
    simp only [Items.masked, Items.tokens, List.append_assoc, List.append_right_inj] at heq
    obtain ⟨hnames, htail⟩ := Json.names_masked hv heq
    obtain ⟨hmore, hend⟩ := Items.names_masked hrest htail
    exact ⟨List.forall_mem_append.mpr ⟨hnames, hmore⟩, hend⟩

theorem Members.names_masked : ∀ {members members' : Members} {sep : List UInt8}
    {ts us : List Token}, members.Kept members' →
    members'.tokens sep ++ ts = members.masked.tokens sep ++ us →
    (∀ k ∈ members.names, (maskString k).1 = k) ∧ ts = us
  | .nil, members', sep, ts, us, h, heq => by
    rw [Members.Kept] at h
    subst h
    exact ⟨fun k hk => (nomatch hk), heq⟩
  | .cons l k r v rest, members', sep, ts, us, h, heq => by
    rw [Members.Kept] at h
    obtain ⟨v', rest', rfl, hv, hrest⟩ := h
    simp only [Members.masked, Members.tokens, List.append_assoc, List.append_right_inj,
      List.cons_append, List.nil_append, List.cons.injEq, Token.str.injEq, true_and] at heq
    obtain ⟨hk, hvalue⟩ := heq
    obtain ⟨hnames, htail⟩ := Json.names_masked hv hvalue
    obtain ⟨hmore, hend⟩ := Members.names_masked hrest htail
    exact ⟨List.forall_mem_cons.mpr ⟨hk.symm, List.forall_mem_append.mpr ⟨hnames, hmore⟩⟩, hend⟩

end

/-! ## records -/

/-- Records, each ended by a newline. -/
def jsonLines (records : List Json) : List UInt8 :=
  records.flatMap fun v => v.render ++ [newline]

/-- Their tokens. -/
def lineTokens (records : List Json) : List Token :=
  records.flatMap fun v => v.tokens ++ [.byte newline]

theorem renderTokens_lines (records : List Json) :
    renderTokens (lineTokens records) = jsonLines records := by
  induction records with
  | nil => rfl
  | cons v records ih =>
    show renderTokens (v.tokens ++ [.byte newline] ++ lineTokens records) =
      v.render ++ [newline] ++ jsonLines records
    rw [renderTokens_append, renderTokens_append, v.render_tokens, ih]
    rfl

theorem properTokens_lines {records : List Json} (h : ∀ v ∈ records, v.Parses) :
    ProperTokens (lineTokens records) := by
  intro t ht
  obtain ⟨v, hv, ht⟩ := List.mem_flatMap.mp ht
  obtain ht | ht := List.mem_append.mp ht
  · exact Json.properTokens (h v hv) t ht
  · exact @properTokens_byte newline (by decide) t ht

theorem lineTokens_masked (records : List Json) :
    lineTokens (records.map Json.masked) = (lineTokens records).map Token.masked := by
  induction records with
  | nil => rfl
  | cons v records ih =>
    show v.masked.tokens ++ [Token.byte newline] ++ lineTokens (records.map Json.masked) =
      (v.tokens ++ [Token.byte newline] ++ lineTokens records).map Token.masked
    rw [ih, v.tokens_masked, List.map_append, List.map_append]
    rfl

/-- **Masking the text of records masks the records.** -/
theorem maskJsonBytes_lines {records : List Json} (h : ∀ v ∈ records, v.Parses) :
    (maskJsonBytes (jsonLines records)).1 = jsonLines (records.map Json.masked) := by
  rw [← renderTokens_lines records, ← renderTokens_lines (records.map _), lineTokens_masked]
  exact Mask.maskJson_tokens (properTokens_lines h) (Nat.le_refl _)

theorem jsonLines_masked_length {records : List Json} (h : ∀ v ∈ records, v.Parses) :
    (jsonLines (records.map Json.masked)).length = (jsonLines records).length := by
  rw [← renderTokens_lines, ← renderTokens_lines, lineTokens_masked]
  exact renderTokens_masked_length (properTokens_lines h)

theorem jsonLines_append (records more : List Json) :
    jsonLines (records ++ more) = jsonLines records ++ jsonLines more :=
  List.flatMap_append

/-- What masking keeps of records. -/
structure KeepsDocument (records : List Json) : Prop where
  /-- every byte is where it was -/
  length : (maskJsonBytes (jsonLines records)).1.length = (jsonLines records).length
  /-- the records are JSON still, and the records they were but for stars in string values -/
  shape : ∃ records', (maskJsonBytes (jsonLines records)).1 = jsonLines records' ∧
    List.Forall₂ Json.Kept records records' ∧ ∀ v ∈ records', v.Parses
  /-- a range of records is masked as it is in the whole -/
  range : ∀ i n, (maskJsonBytes (jsonLines ((records.drop i).take n))).1 =
    ((maskJsonBytes (jsonLines records)).1.drop (jsonLines (records.take i)).length).take
      (jsonLines ((records.drop i).take n)).length

/-- Masked alone, and in the whole. -/
theorem masked_range {records : List Json} (h : ∀ v ∈ records, v.Parses) (i n : Nat) :
    (maskJsonBytes (jsonLines ((records.drop i).take n))).1 =
      ((maskJsonBytes (jsonLines records)).1.drop (jsonLines (records.take i)).length).take
        (jsonLines ((records.drop i).take n)).length := by
  have hleft : ∀ v ∈ records.take i, v.Parses := fun v hv => h v (List.mem_of_mem_take hv)
  have hinner : ∀ v ∈ (records.drop i).take n, v.Parses := fun v hv =>
    h v (List.mem_of_mem_drop (List.mem_of_mem_take hv))
  have hsplit : records.map Json.masked = (records.take i).map Json.masked ++
      (((records.drop i).take n).map Json.masked ++ ((records.drop i).drop n).map Json.masked) := by
    rw [← List.map_append, List.take_append_drop, ← List.map_append, List.take_append_drop]
  rw [maskJsonBytes_lines h, maskJsonBytes_lines hinner, ← jsonLines_masked_length hleft,
    ← jsonLines_masked_length hinner, hsplit, jsonLines_append, jsonLines_append, List.drop_left,
    List.take_left]

/-- The names of members hold no secret that is not starred: a name is a blob, or all that is
found in it is starred. -/
def NamesClear (records : List Json) : Prop :=
  ∀ v ∈ records, ∀ k ∈ v.names,
    Mask.isBlob k = true ∨ ∀ s ∈ Mask.finds k, Mask.starred s = true

theorem maskString_eq_iff {k : List UInt8} (h : Content k) :
    (maskString k).1 = k ↔
      Mask.isBlob k = true ∨ ∀ s ∈ Mask.finds k, Mask.starred s = true := by
  have hformed := Decoder.reach_formed ((Decoder.run_isSome .plain k).mp h.1)
  rw [maskString]
  split
  · next hblob => simp [hblob]
  · next hblob =>
    rw [Mask.maskTextBytes_eq_iff hformed]
    simp [hblob]

mutual

/-- The names of a document that parses are contents. -/
theorem Json.names_content : ∀ {v : Json}, v.Parses → ∀ k ∈ v.names, Content k
  | .atom bs, _, k, hk => nomatch hk
  | .str xs, _, k, hk => nomatch hk
  | .pad l v r, h, k, hk => by
    rw [Json.Parses] at h
    exact Json.names_content h.2.1 k hk
  | .array blank items, h, k, hk => by
    rw [Json.Parses] at h
    exact Items.names_content h.2 k hk
  | .object blank members, h, k, hk => by
    rw [Json.Parses] at h
    exact Members.names_content h.2 k hk

theorem Items.names_content : ∀ {items : Items}, items.Parses → ∀ k ∈ items.names, Content k
  | .nil, _, k, hk => nomatch hk
  | .cons v rest, h, k, hk => by
    rw [Items.Parses] at h
    obtain hk | hk := List.mem_append.mp hk
    · exact Json.names_content h.1 k hk
    · exact Items.names_content h.2 k hk

theorem Members.names_content : ∀ {members : Members}, members.Parses →
    ∀ k ∈ members.names, Content k
  | .nil, _, k, hk => nomatch hk
  | .cons l key r v rest, h, k, hk => by
    rw [Members.Parses] at h
    obtain ⟨-, hkey, -, hv, hrest⟩ := h
    obtain rfl | hk := List.mem_cons.mp hk
    · exact hkey
    · obtain hk | hk := List.mem_append.mp hk
      · exact Json.names_content hv k hk
      · exact Members.names_content hrest k hk

end

/-- Records under the same names, in the text of the masked ones. -/
theorem lines_names_masked {records records' : List Json}
    (h : List.Forall₂ Json.Kept records records')
    (heq : lineTokens records' = lineTokens (records.map Json.masked)) :
    ∀ v ∈ records, ∀ k ∈ v.names, (maskString k).1 = k := by
  induction h with
  | nil => exact fun v hv => nomatch hv
  | @cons v w records records' hkept _ ih =>
    have hfirst : w.tokens ++ ([Token.byte newline] ++ lineTokens records') =
        v.masked.tokens ++ ([Token.byte newline] ++ lineTokens (records.map Json.masked)) := by
      simpa [lineTokens] using heq
    obtain ⟨hnames, hrest⟩ := Json.names_masked hkept hfirst
    exact List.forall_mem_cons.mpr ⟨hnames, ih (List.append_cancel_left hrest)⟩

/-- What is kept is under names that masking leaves. -/
theorem KeepsDocument.names {records : List Json} (h : ∀ v ∈ records, v.Parses)
    (hkeeps : KeepsDocument records) : ∀ v ∈ records, ∀ k ∈ v.names, (maskString k).1 = k := by
  obtain ⟨records', htext, hkept, hparses⟩ := hkeeps.shape
  refine lines_names_masked hkept ?_
  rw [maskJsonBytes_lines h, ← renderTokens_lines, ← renderTokens_lines] at htext
  have hmasked : ∀ v ∈ records.map Json.masked, v.Parses :=
    List.forall_mem_map.mpr fun v hv => Json.parses_masked (h v hv)
  exact (renderTokens_inj (fun t ht => (properTokens_lines hmasked t ht).valid)
    (fun t ht => (properTokens_lines hparses t ht).valid) htext).symm

/-- **Masking keeps records exactly if no name of a member holds a secret.** -/
theorem maskJsonBytes_keeps {records : List Json} (h : ∀ v ∈ records, v.Parses) :
    KeepsDocument records ↔ NamesClear records := by
  have hclear : NamesClear records ↔
      ∀ v ∈ records, ∀ k ∈ v.names, (maskString k).1 = k := by
    constructor
    · intro hnames v hv k hk
      exact (maskString_eq_iff (Json.names_content (h v hv) k hk)).mpr (hnames v hv k hk)
    · intro hnames v hv k hk
      exact (maskString_eq_iff (Json.names_content (h v hv) k hk)).mp (hnames v hv k hk)
  rw [hclear]
  constructor
  · exact KeepsDocument.names h
  · intro hnames
    constructor
    · rw [maskJsonBytes_lines h, jsonLines_masked_length h]
    · refine ⟨records.map Json.masked, maskJsonBytes_lines h, ?_, ?_⟩
      · rw [List.forall₂_map_right_iff]
        exact List.forall₂_same.mpr fun v hv => Json.kept_masked (h v hv) (hnames v hv)
      · exact List.forall_mem_map.mpr fun v hv => Json.parses_masked (h v hv)
    · exact masked_range h

/-- A record with one member. -/
def member (name value : String) : Json :=
  .object [] (.cons [] (Mask.ascii name) [] (.str (Mask.ascii value)) .nil)

theorem member_parses {name value : String}
    (h : ((decode (Mask.ascii name)).isSome && valid (Mask.ascii name) &&
      ((decode (Mask.ascii value)).isSome && valid (Mask.ascii value))) = true) :
    (member name value).Parses := by
  simp only [Bool.and_eq_true] at h
  simp only [member, Json.Parses, Members.Parses, Content]
  exact ⟨by simp, by simp, h.1, by simp, h.2, trivial⟩

/-- A token in a value, and an escape before it. -/
theorem maskJsonBytes_keeps_value :
    KeepsDocument [member "text" "see\\nsk-aaaaaaaaaaaaaaaaaaaa\\u0041"] :=
  (maskJsonBytes_keeps (List.forall_mem_singleton.mpr (member_parses (by decide +kernel)))).mpr
    (by
      rw [NamesClear, List.forall_mem_singleton]
      decide +kernel)

/-- A member that is named by a token loses its name. -/
theorem token_name_masked :
    (member "sk-aaaaaaaaaaaaaaaaaaaa" "on").Parses ∧
      ¬KeepsDocument [member "sk-aaaaaaaaaaaaaaaaaaaa" "on"] := by
  have hparses : (member "sk-aaaaaaaaaaaaaaaaaaaa" "on").Parses :=
    member_parses (by decide +kernel)
  refine ⟨hparses, fun hkeeps => ?_⟩
  have hname := hkeeps.names (List.forall_mem_singleton.mpr hparses) _
    (List.mem_singleton_self _) (Mask.ascii "sk-aaaaaaaaaaaaaaaaaaaa") List.mem_cons_self
  revert hname
  decide +kernel

end ClaudeReplay
