import ClaudeReplay.Elide.Marker

/-!
# ClaudeReplay.Elide.Keys

Which values are elided under a `Keys` policy. The scanner keeps its own stack of keys
without parsing; here the line is a parsed document (`Json`, with the blanks between its
tokens), and `Json.plan` says by recursion on it which of its strings are elided: by
the keys around each, as far as the scanner tracks them. `Json.scanned` is the agreement of the two, and
`elides_by_keys` what it says of a line that is read.

The chain of a value is made of raw key bytes, innermost first. It ends before a key
longer than `keyCap` and before a container that no key names, and with more than
`depthCap` containers open nothing matches. A key longer than `elideStringBytes` is
outside what is said here (`Json.Valid`).
-/

namespace ClaudeReplay

open Lib (quote Whole)

/-! ## documents -/

mutual

/-- A JSON document, as it is written. -/
inductive Json
  /-- a number or a literal -/
  | atom (bs : List UInt8)
  | str (content : List UInt8)
  /-- a value with blanks around it -/
  | pad (left : List UInt8) (v : Json) (right : List UInt8)
  | array (blank : List UInt8) (items : Items)
  | object (blank : List UInt8) (members : Members)

/-- The elements of an array. -/
inductive Items
  | nil
  | cons (v : Json) (rest : Items)

/-- The members of an object, each key with the blanks around it. -/
inductive Members
  | nil
  | cons (left key right : List UInt8) (v : Json) (rest : Members)

end

/-- A byte that is neither a quote nor a bracket, a colon or a comma. -/
def Filler (b : UInt8) : Prop :=
  b ≠ quote ∧ b ≠ 0x7B ∧ b ≠ 0x5B ∧ b ≠ 0x7D ∧ b ≠ 0x5D ∧ b ≠ 0x3A ∧ b ≠ 0x2C

mutual

/-- What a document is made of: whole strings, keys that are not oversized, and blanks
and atoms without structure. -/
def Json.Valid : Json → Prop
  | .atom bs => ∀ b ∈ bs, Filler b
  | .str xs => Whole xs
  | .pad l v r => (∀ b ∈ l, Filler b) ∧ v.Valid ∧ ∀ b ∈ r, Filler b
  | .array blank items => (∀ b ∈ blank, Filler b) ∧ items.Valid
  | .object blank members => (∀ b ∈ blank, Filler b) ∧ members.Valid

/-- Valid elements. -/
def Items.Valid : Items → Prop
  | .nil => True
  | .cons v rest => v.Valid ∧ rest.Valid

/-- Valid members. -/
def Members.Valid : Members → Prop
  | .nil => True
  | .cons l k r v rest => (∀ b ∈ l, Filler b) ∧ (Whole k ∧ k.length ≤ elideStringBytes) ∧
      (∀ b ∈ r, Filler b) ∧ v.Valid ∧ rest.Valid

end

mutual

/-- The bytes of a document. -/
def Json.render : Json → List UInt8
  | .atom bs => bs
  | .str xs => quote :: xs ++ [quote]
  | .pad l v r => l ++ v.render ++ r
  | .array blank items => [0x5B] ++ blank ++ items.render [] ++ [0x5D]
  | .object blank members => [0x7B] ++ blank ++ members.render [] ++ [0x7D]

/-- The elements, with commas between them. -/
def Items.render (sep : List UInt8) : Items → List UInt8
  | .nil => []
  | .cons v rest => sep ++ v.render ++ rest.render [0x2C]

/-- The members, with commas between them. -/
def Members.render (sep : List UInt8) : Members → List UInt8
  | .nil => []
  | .cons l k r v rest =>
    sep ++ l ++ (quote :: k ++ [quote]) ++ r ++ [0x3A] ++ v.render ++ rest.render [0x2C]

end

/-! ## which strings are elided -/

/-- The keys of a value, innermost first: its own, if it has one, and those that name
the containers around it. -/
def keyChain (own : Option TrackedKey) (openers : List TrackedKey) : Option (List (List UInt8)) :=
  match own with
  | some (.bytes k) => some (k :: Scope.usable openers)
  | some .unmatchable => none
  | none => some (Scope.usable openers)

/-- The chain ends in a listed suffix. -/
def listed (pats : List (List (List UInt8))) (own : Option TrackedKey)
    (openers : List TrackedKey) : Bool :=
  decide (openers.length ≤ depthCap) &&
    match keyChain own openers with
    | some chain => pats.any fun pat => pat.reverse.isPrefixOf chain
    | none => false

/-- A string value under these keys is elided. -/
def elidesValue (pats : List (List (List UInt8))) (own : Option TrackedKey)
    (openers : List TrackedKey) (xs : List UInt8) : Bool :=
  decide (elideStringBytes < xs.length) && listed pats own openers

/-- Bytes that are copied. -/
def copied (bs : List UInt8) : List (Token × Bool) := bs.map fun b => (.byte b, false)

mutual

/-- The tokens of a document, each with whether it is elided. -/
def Json.plan (pats : List (List (List UInt8))) (own : Option TrackedKey)
    (openers : List TrackedKey) : Json → List (Token × Bool)
  | .atom bs => copied bs
  | .str xs => [(.str xs, elidesValue pats own openers xs)]
  | .pad l v r => copied l ++ v.plan pats own openers ++ copied r
  | .array blank items =>
    copied [0x5B] ++ copied blank ++ items.plan pats (own.getD .unmatchable :: openers) [] ++
      copied [0x5D]
  | .object blank members =>
    copied [0x7B] ++ copied blank ++ members.plan pats (own.getD .unmatchable :: openers) [] ++
      copied [0x7D]

/-- The elements of an array: no key names them. -/
def Items.plan (pats : List (List (List UInt8))) (openers : List TrackedKey)
    (sep : List UInt8) : Items → List (Token × Bool)
  | .nil => []
  | .cons v rest => copied sep ++ v.plan pats none openers ++ rest.plan pats openers [0x2C]

/-- The members of an object: each is named by its key. -/
def Members.plan (pats : List (List (List UInt8))) (openers : List TrackedKey)
    (sep : List UInt8) : Members → List (Token × Bool)
  | .nil => []
  | .cons l k r v rest =>
    copied sep ++ copied l ++ [(.str k, false)] ++ copied r ++ copied [0x3A] ++
      v.plan pats (some (Scope.trackedKey k)) openers ++ rest.plan pats openers [0x2C]

end

/-- The bytes of a plan's tokens. -/
def rawPlan (ps : List (Token × Bool)) : List UInt8 := renderTokens (ps.map Prod.fst)

/-- The bytes of a plan at a file offset, the elided strings as frames. -/
def renderPlan (off : Nat) : List (Token × Bool) → List UInt8
  | [] => []
  | (.str xs, true) :: ps =>
    quote :: frame (off + 1) xs ++ quote :: renderPlan (off + xs.length + 2) ps
  | (t, _) :: ps => t.render ++ renderPlan (off + t.render.length) ps

/-! ## plans -/

theorem rawPlan_append (ps qs : List (Token × Bool)) :
    rawPlan (ps ++ qs) = rawPlan ps ++ rawPlan qs := by
  rw [rawPlan, List.map_append, renderTokens_append]
  rfl

@[simp] theorem rawPlan_copied (bs : List UInt8) : rawPlan (copied bs) = bs := by
  induction bs with
  | nil => rfl
  | cons b bs ih =>
    simp only [copied, rawPlan, List.map_cons, renderTokens_cons] at ih ⊢
    rw [ih]
    rfl

@[simp] theorem rawPlan_nil : rawPlan [] = [] := rfl

@[simp] theorem rawPlan_cons (t : Token) (e : Bool) (ps : List (Token × Bool)) :
    rawPlan ((t, e) :: ps) = t.render ++ rawPlan ps := by
  rw [rawPlan, List.map_cons, renderTokens_cons]
  rfl

theorem renderPlan_append (off : Nat) (ps qs : List (Token × Bool)) :
    renderPlan off (ps ++ qs) =
      renderPlan off ps ++ renderPlan (off + (rawPlan ps).length) qs := by
  induction ps generalizing off with
  | nil => rfl
  | cons p ps ih =>
    obtain ⟨t, e⟩ := p
    rw [rawPlan_cons, List.length_append, List.cons_append]
    cases t with
    | byte b => simp [renderPlan, ih, Nat.add_assoc]
    | str xs => cases e <;> simp [renderPlan, ih, Nat.add_assoc, Token.render]

/-- A plan without elided strings is copied. -/
theorem renderPlan_copied (off : Nat) (bs : List UInt8) : renderPlan off (copied bs) = bs := by
  induction bs generalizing off with
  | nil => rfl
  | cons b bs ih =>
    have hrest := ih (off + 1)
    simp only [copied] at hrest
    simp [copied, renderPlan, Token.render, hrest]

mutual

/-- Whatever is elided, the tokens are the document's. -/
theorem Json.rawPlan_plan (pats : List (List (List UInt8))) (own : Option TrackedKey)
    (openers : List TrackedKey) : ∀ v : Json, rawPlan (v.plan pats own openers) = v.render
  | .atom bs => by simp [Json.plan, Json.render]
  | .str xs => by simp [Json.plan, Json.render, Token.render]
  | .pad l v r => by simp [Json.plan, Json.render, rawPlan_append, v.rawPlan_plan pats own openers]
  | .array blank items => by
    simp [Json.plan, Json.render, rawPlan_append, 
      items.rawPlan_plan pats (own.getD .unmatchable :: openers)]
  | .object blank members => by
    simp [Json.plan, Json.render, rawPlan_append,
      members.rawPlan_plan pats (own.getD .unmatchable :: openers)]

theorem Items.rawPlan_plan (pats : List (List (List UInt8))) (openers : List TrackedKey)
    (sep : List UInt8) : ∀ items : Items, rawPlan (items.plan pats openers sep) = items.render sep
  | .nil => rfl
  | .cons v rest => by
    simp [Items.plan, Items.render, rawPlan_append, v.rawPlan_plan pats none openers,
      rest.rawPlan_plan pats openers [0x2C]]

theorem Members.rawPlan_plan (pats : List (List (List UInt8))) (openers : List TrackedKey)
    (sep : List UInt8) :
    ∀ members : Members, rawPlan (members.plan pats openers sep) = members.render sep
  | .nil => rfl
  | .cons l k r v rest => by
    simp [Members.plan, Members.render, rawPlan_append, Token.render,
      v.rawPlan_plan pats (some (Scope.trackedKey k)) openers, rest.rawPlan_plan pats openers [0x2C]]

end

/-! ## the scanner's stack -/

/-- The scanner stands in these containers, with these keys naming them. -/
structure Stands (s : Scope) (ctx : List Ctx) (openers : List TrackedKey) : Prop where
  ctx : s.ctx = ctx
  keyStack : s.keyStack = openers.drop (openers.length - depthCap)
  depthOverflow : s.depthOverflow = openers.length - depthCap

theorem matchesPat_eq (chain pat : List (List UInt8)) :
    Scope.matchesPat chain pat = pat.reverse.isPrefixOf chain := by
  unfold Scope.matchesPat
  rw [← @List.length_reverse _ pat]
  generalize pat.reverse = ks
  induction ks generalizing chain with
  | nil => simp
  | cons k ks ih =>
    cases chain with
    | nil => simp
    | cons c chain =>
      have hrest := ih chain
      simp only [List.length_cons, Nat.add_le_add_iff_right, List.zip_cons_cons, List.all_cons,
        List.isPrefixOf_cons_cons]
      rw [← hrest, ← Bool.and_assoc, ← Bool.and_assoc, Bool.and_comm (decide _),
        Bool.beq_comm]

/-- The policy's answer is the listed suffixes'. -/
theorem Stands.policyAllows {s : Scope} {ctx : List Ctx} {openers : List TrackedKey}
    {pats : List (List (List UInt8))} (h : Stands s ctx openers) (hp : s.policy = .keys pats) :
    s.policyAllows = listed pats s.lastKey openers := by
  unfold Scope.policyAllows listed
  rw [hp, h.depthOverflow]
  by_cases hdepth : openers.length ≤ depthCap
  · have hzero : openers.length - depthCap = 0 := by omega
    have hchain : s.chain = keyChain s.lastKey openers := by
      rw [Scope.chain, h.keyStack, hzero, List.drop_zero]
      rfl
    simp only [hzero, Nat.lt_irrefl, if_false, hchain, hdepth, decide_true, Bool.true_and]
    cases keyChain s.lastKey openers with
    | none => rfl
    | some chain => simp only [funext fun pat => matchesPat_eq chain pat]
  · simp only [hdepth, decide_false, Bool.false_and]
    rw [if_pos (by omega)]

/-- A container is opened. -/
theorem Stands.open {s : Scope} {ctx : List Ctx} {openers : List TrackedKey}
    (h : Stands s ctx openers) (isArray : Bool) :
    Stands (s.openContainer isArray) ((if isArray then .array else .object) :: ctx)
      (s.lastKey.getD .unmatchable :: openers) := by
  have hlen : s.keyStack.length = min openers.length depthCap := by
    rw [h.keyStack, List.length_drop]
    omega
  refine ⟨by simp [Scope.openContainer, h.ctx], ?_, ?_⟩
  · by_cases hcap : openers.length < depthCap
    · have hzero : openers.length - depthCap = 0 := by omega
      have hzero' : openers.length + 1 - depthCap = 0 := by omega
      simp [Scope.openContainer, h.keyStack, hcap, hzero, hzero']
    · obtain ⟨n, hn⟩ : ∃ n, openers.length = depthCap + n := ⟨openers.length - depthCap, by omega⟩
      have hdrop : openers.length - depthCap = n := by omega
      have hdrop' : openers.length + 1 - depthCap = n + 1 := by omega
      simp only [Scope.openContainer]
      rw [if_neg (by omega), List.length_cons, hdrop', List.drop_succ_cons, h.keyStack, hdrop]
  · simp only [Scope.openContainer, hlen, h.depthOverflow, List.length_cons]
    split <;> omega

/-- It is closed. -/
theorem Stands.close {s : Scope} {ctx : List Ctx} {c : Ctx} {k : TrackedKey}
    {openers : List TrackedKey} (h : Stands s (c :: ctx) (k :: openers)) :
    Stands s.closeContainer ctx openers := by
  refine ⟨by simp [Scope.closeContainer, h.ctx], ?_, ?_⟩
  · by_cases hcap : openers.length < depthCap
    · have hzero : openers.length - depthCap = 0 := by omega
      have hzero' : openers.length + 1 - depthCap = 0 := by omega
      simp [Scope.closeContainer, h.keyStack, h.depthOverflow, hzero, hzero']
    · have hdrop : openers.length + 1 - depthCap = openers.length - depthCap + 1 := by omega
      simp [Scope.closeContainer, h.keyStack, h.depthOverflow, hdrop]
  · have := h.depthOverflow
    simp only [List.length_cons] at this
    simp only [Scope.closeContainer, this]
    omega

/-! ## the scanner over a document -/

/-- The scope after a plan's tokens. -/
def after (s : Scope) (ps : List (Token × Bool)) : Scope := (s.tokens (ps.map Prod.fst)).1

/-- The scope writes what the plan says. -/
def Writes (s : Scope) (ps : List (Token × Bool)) : Prop :=
  (s.tokens (ps.map Prod.fst)).2 = renderPlan (s.lineStart + s.pos) ps

theorem after_append (s : Scope) (ps qs : List (Token × Bool)) :
    after s (ps ++ qs) = after (after s ps) qs := by
  rw [after, List.map_append, Scope.tokens_append]
  rfl

theorem after_frame (s : Scope) (ps : List (Token × Bool)) :
    (after s ps).pos = s.pos + (rawPlan ps).length ∧ (after s ps).lineStart = s.lineStart ∧
      (after s ps).policy = s.policy :=
  s.tokens_frame (ps.map Prod.fst)

theorem Writes.append {s : Scope} {ps qs : List (Token × Bool)} (hp : Writes s ps)
    (hq : Writes (after s ps) qs) : Writes s (ps ++ qs) := by
  obtain ⟨hpos, hline, -⟩ := after_frame s ps
  unfold Writes at hp hq ⊢
  rw [List.map_append, Scope.tokens_append, renderPlan_append, hp]
  rw [hpos, hline, ← Nat.add_assoc] at hq
  exact congrArg _ hq

/-- Bytes that are copied are written. -/
theorem writes_copied (s : Scope) (bs : List UInt8) : Writes s (copied bs) := by
  unfold Writes
  rw [renderPlan_copied, copied, List.map_map]
  exact (s.tokens_bytes bs).1

/-- Filler leaves the scope as it was, further on. -/
theorem after_filler (s : Scope) {bs : List UInt8} (h : ∀ b ∈ bs, Filler b) :
    after s (copied bs) = { s with pos := s.pos + bs.length } := by
  induction bs generalizing s with
  | nil => rfl
  | cons b bs ih =>
    obtain ⟨-, h₁, h₂, h₃, h₄, h₅, h₆⟩ := h b List.mem_cons_self
    have hstep : after s [(.byte b, false)] = { s with pos := s.pos + 1 } := by
      simp [after, Scope.tokens, Scope.token, Scope.punct, h₁, h₂, h₃, h₄, h₅, h₆]
    have hsplit : copied (b :: bs) = [(.byte b, false)] ++ copied bs := rfl
    rw [hsplit, after_append, hstep, ih _ fun a ha => h a (List.mem_cons_of_mem _ ha),
      List.length_cons, Nat.add_right_comm, Nat.add_assoc]

/-- What the scanner has made of a value: it wrote the plan, and stands where it
stood, with the value's key or none. -/
structure Scanned (s : Scope) (ctx : List Ctx) (openers : List TrackedKey)
    (own : Option TrackedKey) (ps : List (Token × Bool)) : Prop where
  writes : Writes s ps
  stands : Stands (after s ps) ctx openers
  last : (after s ps).lastKey = own ∨ (after s ps).lastKey = none

/-- A string value is elided if the plan says so. -/
theorem scanned_str {s : Scope} {ctx : List Ctx} {openers : List TrackedKey}
    {pats : List (List (List UInt8))} (hp : s.policy = .keys pats) (hs : Stands s ctx openers)
    (he : s.expectingValue = true) (xs : List UInt8) :
    Scanned s ctx openers s.lastKey [(.str xs, elidesValue pats s.lastKey openers xs)] := by
  have helides : s.elides xs = elidesValue pats s.lastKey openers xs := by
    rw [Scope.elides, he, hs.policyAllows hp, elidesValue, Bool.true_and, Bool.and_comm]
  have hafter : after s [(.str xs, elidesValue pats s.lastKey openers xs)] = (s.str xs).1 := rfl
  refine ⟨?_, ?_, .inl ?_⟩
  · have hout : (s.tokens [.str xs]).2 = (s.str xs).2 := by simp [Scope.tokens, Scope.token]
    unfold Writes
    rw [List.map_singleton, hout, Scope.str, helides]
    cases elidesValue pats s.lastKey openers xs <;> simp [renderPlan, Token.render]
  · rw [hafter]
    exact ⟨hs.ctx, hs.keyStack, hs.depthOverflow⟩
  · rw [hafter]
    simp [Scope.str, he]

/-- A byte between strings. -/
theorem after_byte (s : Scope) (b : UInt8) :
    after s (copied [b]) = { s with pos := s.pos + 1 }.punct b := rfl

theorem Stands.move {s : Scope} {ctx : List Ctx} {openers : List TrackedKey}
    (h : Stands s ctx openers) (n : Nat) : Stands { s with pos := n } ctx openers :=
  ⟨h.ctx, h.keyStack, h.depthOverflow⟩

/-- **A container**: what is in it is scanned under its own opener, and it leaves no
key behind. -/
theorem scanned_container {s : Scope} {ctx : List Ctx} {openers : List TrackedKey}
    (isArray : Bool) {blank : List UInt8} {inner : List (Token × Bool)}
    (hblank : ∀ b ∈ blank, Filler b) (hs : Stands s ctx openers)
    (hinner : ∀ s' : Scope, s'.policy = s.policy →
      Stands s' ((if isArray then .array else .object) :: ctx)
        (s.lastKey.getD .unmatchable :: openers) →
      s'.lastKey = none → s'.expectingValue = isArray →
      Writes s' inner ∧ Stands (after s' inner) ((if isArray then .array else .object) :: ctx)
        (s.lastKey.getD .unmatchable :: openers)) :
    Scanned s ctx openers s.lastKey
      (copied [if isArray then 0x5B else 0x7B] ++ copied blank ++ inner ++
        copied [if isArray then 0x5D else 0x7D]) := by
  have hopen : after s (copied [if isArray then 0x5B else 0x7B]) =
      { s with pos := s.pos + 1 }.openContainer isArray := by
    rw [after_byte]
    cases isArray <;> simp [Scope.punct]
  have hclose : ∀ s : Scope, after s (copied [if isArray then 0x5D else 0x7D]) =
      { s with pos := s.pos + 1 }.closeContainer := by
    intro s
    rw [after_byte]
    cases isArray <;> simp [Scope.punct]
  have hin : after s (copied [if isArray then 0x5B else 0x7B] ++ copied blank) =
      { { s with pos := s.pos + 1 }.openContainer isArray with
        pos := s.pos + 1 + blank.length } := by
    rw [after_append, hopen, after_filler _ hblank]
    rfl
  obtain ⟨hwrites, hstands⟩ := hinner
    (after s (copied [if isArray then 0x5B else 0x7B] ++ copied blank)) (by rw [hin]; rfl)
    (by rw [hin]; exact ((hs.move _).open isArray).move _) (by rw [hin]; rfl) (by rw [hin]; rfl)
  rw [← after_append] at hstands
  refine ⟨((writes_copied s _).append (writes_copied _ _)).append hwrites |>.append
    (writes_copied _ _), ?_, .inr ?_⟩
  · rw [after_append, hclose]
    exact (hstands.move _).close
  · rw [after_append, hclose]
    rfl

/-- The separator before an element leaves a value expected, before a member a key. -/
theorem after_separator {s : Scope} {c : Ctx} {ctx : List Ctx} {openers : List TrackedKey}
    {sep : List UInt8} (hs : Stands s (c :: ctx) openers)
    (hsep : sep = [] ∧ s.expectingValue = (c != .object) ∨ sep = [0x2C]) :
    Stands (after s (copied sep)) (c :: ctx) openers ∧
      (after s (copied sep)).lastKey = s.lastKey ∧
      (after s (copied sep)).expectingValue = (c != .object) := by
  rcases hsep with ⟨rfl, he⟩ | rfl
  · exact ⟨hs, rfl, he⟩
  · have hpunct : after s (copied [0x2C]) =
        { s with pos := s.pos + 1, expectingValue := c != .object } := by
      rw [after_byte]
      simp only [Scope.punct, hs.ctx]
      cases c <;> rfl
    rw [hpunct]
    exact ⟨⟨hs.ctx, hs.keyStack, hs.depthOverflow⟩, rfl, rfl⟩

/-- A key is copied, and tracked. -/
theorem scanned_key {s : Scope} {ctx : List Ctx} {openers : List TrackedKey} {k : List UInt8}
    (hs : Stands s ctx openers) (he : s.expectingValue = false)
    (hk : k.length ≤ elideStringBytes) :
    Writes s [(.str k, false)] ∧ Stands (after s [(.str k, false)]) ctx openers ∧
      (after s [(.str k, false)]).lastKey = some (Scope.trackedKey k) := by
  have hafter : after s [(.str k, false)] = (s.str k).1 := rfl
  have helides : s.elides k = false := by simp [Scope.elides, he]
  refine ⟨?_, ?_, ?_⟩
  · have hout : (s.tokens [.str k]).2 = (s.str k).2 := by simp [Scope.tokens, Scope.token]
    unfold Writes
    rw [List.map_singleton, hout, Scope.str, helides]
    simp [renderPlan, Token.render]
  · rw [hafter]
    exact ⟨hs.ctx, hs.keyStack, hs.depthOverflow⟩
  · rw [hafter]
    simp [Scope.str, he, Nat.not_lt.mpr hk]

/-- What stands before a member's value: its name, and the colon. -/
theorem scanned_name {s : Scope} {ctx : List Ctx} {openers : List TrackedKey}
    {sep l k r : List UInt8} (hs : Stands s (.object :: ctx) openers)
    (hsep : sep = [] ∧ s.expectingValue = false ∨ sep = [0x2C]) (hl : ∀ b ∈ l, Filler b)
    (hk : k.length ≤ elideStringBytes) (hr : ∀ b ∈ r, Filler b) :
    Writes s (copied sep ++ copied l ++ [(.str k, false)] ++ copied r ++ copied [0x3A]) ∧
      Stands (after s (copied sep ++ copied l ++ [(.str k, false)] ++ copied r ++ copied [0x3A]))
        (.object :: ctx) openers ∧
      (after s (copied sep ++ copied l ++ [(.str k, false)] ++ copied r ++
        copied [0x3A])).lastKey = some (Scope.trackedKey k) ∧
      (after s (copied sep ++ copied l ++ [(.str k, false)] ++ copied r ++
        copied [0x3A])).expectingValue = true := by
  obtain ⟨hs₁, -, he₁⟩ := after_separator hs hsep
  have hleft := after_filler (after s (copied sep)) hl
  have hstands : Stands (after (after s (copied sep)) (copied l)) (.object :: ctx) openers := by
    rw [hleft]
    exact hs₁.move _
  have hexpects : (after (after s (copied sep)) (copied l)).expectingValue = false := by
    rw [hleft]
    exact he₁
  obtain ⟨hw₂, hs₂, hlast₂⟩ := scanned_key hstands hexpects hk
  simp only [← after_append] at hw₂ hs₂ hlast₂
  have hcolon : after s (copied sep ++ copied l ++ [(.str k, false)] ++ copied r ++ copied [0x3A]) =
      { after s (copied sep ++ copied l ++ [(.str k, false)]) with
        pos := (after s (copied sep ++ copied l ++ [(.str k, false)])).pos + r.length + 1
        expectingValue := true } := by
    rw [after_append, after_append _ _ (copied r), after_filler _ hr, after_byte]
    simp [Scope.punct]
  have hwrites := ((writes_copied s sep).append (writes_copied _ l))
  have hbefore := hwrites.append hw₂
  refine ⟨(hbefore.append (writes_copied _ r)).append (writes_copied _ _), ?_, ?_, ?_⟩
  · rw [hcolon]
    exact ⟨hs₂.ctx, hs₂.keyStack, hs₂.depthOverflow⟩
  · rw [hcolon]
    exact hlast₂
  · rw [hcolon]

mutual

/-- **The scanner over a document.** -/
theorem Json.scanned {pats : List (List (List UInt8))} :
    ∀ (v : Json) {s : Scope} {ctx : List Ctx} {openers : List TrackedKey}, v.Valid →
      s.policy = .keys pats → Stands s ctx openers → s.expectingValue = true →
      Scanned s ctx openers s.lastKey (v.plan pats s.lastKey openers)
  | .atom bs, s, ctx, openers, hv, hp, hs, he => by
    rw [Json.plan]
    have hafter := after_filler s hv
    refine ⟨writes_copied s bs, ?_, .inl ?_⟩
    · rw [hafter]
      exact hs.move _
    · rw [hafter]
  | .str xs, s, ctx, openers, _, hp, hs, he => scanned_str hp hs he xs
  | .pad l v r, s, ctx, openers, hv, hp, hs, he => by
    rw [Json.Valid] at hv
    obtain ⟨hl, hvalid, hr⟩ := hv
    have hleft := after_filler s hl
    have hmid : Scanned (after s (copied l)) ctx openers s.lastKey
        (v.plan pats s.lastKey openers) := by
      rw [hleft]
      exact v.scanned hvalid hp (hs.move _) he
    have hafter : after s (copied l ++ v.plan pats s.lastKey openers ++ copied r) =
        { after (after s (copied l)) (v.plan pats s.lastKey openers) with
          pos := (after (after s (copied l)) (v.plan pats s.lastKey openers)).pos + r.length } := by
      rw [after_append, after_append, after_filler _ hr]
    rw [Json.plan]
    refine ⟨((writes_copied s l).append hmid.writes).append (writes_copied _ r), ?_, ?_⟩
    · rw [hafter]
      exact hmid.stands.move _
    · rw [hafter]
      exact hmid.last
  | .array blank items, s, ctx, openers, hv, hp, hs, he => by
    rw [Json.Valid] at hv
    rw [Json.plan]
    refine scanned_container true hv.1 hs fun s' hp' hs' hlast hval => ?_
    have hitems := items.scanned hv.2 (hp'.trans hp) hs' hlast (.inl ⟨rfl, hval⟩)
    exact ⟨hitems.writes, hitems.stands⟩
  | .object blank members, s, ctx, openers, hv, hp, hs, he => by
    rw [Json.Valid] at hv
    rw [Json.plan]
    refine scanned_container false hv.1 hs fun s' hp' hs' _ hval => ?_
    exact members.scanned hv.2 (hp'.trans hp) hs' (.inl ⟨rfl, hval⟩)

/-- The elements of an array. -/
theorem Items.scanned {pats : List (List (List UInt8))} :
    ∀ (items : Items) {s : Scope} {ctx : List Ctx} {openers : List TrackedKey}
      {sep : List UInt8}, items.Valid → s.policy = .keys pats →
      Stands s (.array :: ctx) openers → s.lastKey = none →
      (sep = [] ∧ s.expectingValue = true ∨ sep = [0x2C]) →
      Scanned s (.array :: ctx) openers none (items.plan pats openers sep)
  | .nil, s, ctx, openers, sep, _, _, hs, hlast, _ => by
    rw [Items.plan]
    exact ⟨rfl, hs, .inl hlast⟩
  | .cons v rest, s, ctx, openers, sep, hv, hp, hs, hlast, hsep => by
    rw [Items.Valid] at hv
    obtain ⟨hs₁, hlast₁, he₁⟩ := after_separator hs hsep
    obtain ⟨-, -, hp₁⟩ := after_frame s (copied sep)
    have hval := v.scanned hv.1 (hp₁.trans hp) hs₁ he₁
    rw [hlast₁, hlast] at hval
    obtain ⟨hw₂, hs₂, hlast₂⟩ := hval
    obtain ⟨-, -, hp₂⟩ := after_frame (after s (copied sep)) (v.plan pats none openers)
    obtain ⟨hw₃, hs₃, hlast₃⟩ := rest.scanned hv.2 (hp₂.trans (hp₁.trans hp)) hs₂
      (hlast₂.elim id id) (.inr rfl)
    rw [Items.plan]
    have hw₁₂ := (writes_copied s sep).append hw₂
    simp only [← after_append] at hs₃ hlast₃ hw₃
    exact ⟨hw₁₂.append hw₃, hs₃, hlast₃⟩

/-- The members of an object. -/
theorem Members.scanned {pats : List (List (List UInt8))} :
    ∀ (members : Members) {s : Scope} {ctx : List Ctx} {openers : List TrackedKey}
      {sep : List UInt8}, members.Valid → s.policy = .keys pats →
      Stands s (.object :: ctx) openers →
      (sep = [] ∧ s.expectingValue = false ∨ sep = [0x2C]) →
      Writes s (members.plan pats openers sep) ∧
        Stands (after s (members.plan pats openers sep)) (.object :: ctx) openers
  | .nil, s, ctx, openers, sep, _, _, hs, _ => by
    rw [Members.plan]
    exact ⟨rfl, hs⟩
  | .cons l k r v rest, s, ctx, openers, sep, hv, hp, hs, hsep => by
    rw [Members.Valid] at hv
    obtain ⟨hl, ⟨-, hk⟩, hr, hvalid, hrest⟩ := hv
    obtain ⟨hwrites, hs₁, hlast₁, he₁⟩ := scanned_name hs hsep hl hk hr
    obtain ⟨-, -, hp₁⟩ := after_frame s
      (copied sep ++ copied l ++ [(.str k, false)] ++ copied r ++ copied [0x3A])
    have hval := v.scanned hvalid (hp₁.trans hp) hs₁ he₁
    rw [hlast₁] at hval
    obtain ⟨hw₂, hs₂, -⟩ := hval
    obtain ⟨-, -, hp₂⟩ := after_frame
      (after s (copied sep ++ copied l ++ [(.str k, false)] ++ copied r ++ copied [0x3A]))
      (v.plan pats (some (Scope.trackedKey k)) openers)
    obtain ⟨hw₃, hs₃⟩ := rest.scanned hrest (hp₂.trans (hp₁.trans hp)) hs₂ (.inr rfl)
    rw [Members.plan]
    have hw₁₂ := hwrites.append hw₂
    simp only [← after_append] at hs₃ hw₃
    exact ⟨hw₁₂.append hw₃, hs₃⟩

end

/-! ## a line -/

/-- The tokens of a plan are the scanner's. -/
def PlanValid (ps : List (Token × Bool)) : Prop := ∀ p ∈ ps, p.1.Valid

theorem PlanValid.append {ps qs : List (Token × Bool)} (hp : PlanValid ps) (hq : PlanValid qs) :
    PlanValid (ps ++ qs) := by
  intro p hmem
  obtain h | h := List.mem_append.mp hmem
  · exact hp p h
  · exact hq p h

theorem planValid_copied {bs : List UInt8} (h : quote ∉ bs) : PlanValid (copied bs) := by
  intro p hmem
  obtain ⟨b, hb, rfl⟩ := List.mem_map.mp hmem
  intro heq
  exact h (heq ▸ hb)

theorem planValid_filler {bs : List UInt8} (h : ∀ b ∈ bs, Filler b) : PlanValid (copied bs) :=
  planValid_copied fun hmem => (h quote hmem).1 rfl

theorem planValid_str {xs : List UInt8} (h : Whole xs) (e : Bool) : PlanValid [(.str xs, e)] := by
  intro p hmem
  rw [List.mem_singleton.mp hmem]
  exact h

mutual

/-- A valid document has valid tokens. -/
theorem Json.planValid (pats : List (List (List UInt8))) (own : Option TrackedKey)
    (openers : List TrackedKey) : ∀ {v : Json}, v.Valid → PlanValid (v.plan pats own openers)
  | .atom bs, h => by
    rw [Json.Valid] at h
    exact planValid_filler h
  | .str xs, h => by
    rw [Json.Valid] at h
    exact planValid_str h _
  | .pad l v r, h => by
    rw [Json.Valid] at h
    exact ((planValid_filler h.1).append (Json.planValid pats own openers h.2.1)).append
      (planValid_filler h.2.2)
  | .array blank items, h => by
    rw [Json.Valid] at h
    have hopen := (@planValid_copied [0x5B] (by decide)).append (planValid_filler h.1)
    have hitems := Items.planValid pats (own.getD .unmatchable :: openers)
      (@List.not_mem_nil _ quote) h.2
    exact (hopen.append hitems).append (planValid_copied (by decide))
  | .object blank members, h => by
    rw [Json.Valid] at h
    have hopen := (@planValid_copied [0x7B] (by decide)).append (planValid_filler h.1)
    have hmembers := Members.planValid pats (own.getD .unmatchable :: openers)
      (@List.not_mem_nil _ quote) h.2
    exact (hopen.append hmembers).append (planValid_copied (by decide))

theorem Items.planValid (pats : List (List (List UInt8))) (openers : List TrackedKey)
    {sep : List UInt8} (hsep : quote ∉ sep) :
    ∀ {items : Items}, items.Valid → PlanValid (items.plan pats openers sep)
  | .nil, _ => by simp [PlanValid, Items.plan]
  | .cons v rest, h => by
    rw [Items.Valid] at h
    have hvalue := (planValid_copied hsep).append (Json.planValid pats none openers h.1)
    exact hvalue.append (Items.planValid pats openers (by decide) h.2)

theorem Members.planValid (pats : List (List (List UInt8))) (openers : List TrackedKey)
    {sep : List UInt8} (hsep : quote ∉ sep) :
    ∀ {members : Members}, members.Valid → PlanValid (members.plan pats openers sep)
  | .nil, _ => by simp [PlanValid, Members.plan]
  | .cons l k r v rest, h => by
    rw [Members.Valid] at h
    obtain ⟨hl, ⟨hk, -⟩, hr, hvalid, hrest⟩ := h
    have hname := ((planValid_copied hsep).append (planValid_filler hl)).append
      (planValid_str hk false)
    have hcolon := (hname.append (planValid_filler hr)).append
      (@planValid_copied [0x3A] (by decide))
    have hvalue := hcolon.append
      (Json.planValid pats (some (Scope.trackedKey k)) openers hvalid)
    exact hvalue.append (Members.planValid pats openers (by decide) hrest)

end

/-- A document's line: copied if it is short, and else as its plan says. -/
def Json.elided (lineStart : Nat) (pats : List (List (List UInt8))) (v : Json) : List UInt8 :=
  if v.render.length + 1 ≤ scanThreshold then v.render ++ [newline]
  else renderPlan lineStart (v.plan pats none []) ++ [newline]

/-- The line handed on for a document. -/
theorem lineOut_json {v : Json} (hv : v.Valid) (lineStart : Nat)
    (pats : List (List (List UInt8))) :
    lineOut lineStart (.keys pats) (v.render ++ [newline]) = v.elided lineStart pats := by
  have hlen : (v.render ++ [newline]).length = v.render.length + 1 := List.length_append
  unfold lineOut Json.elided
  rw [hlen]
  by_cases hshort : v.render.length + 1 ≤ scanThreshold
  · rw [if_pos hshort, if_pos hshort]
  · rw [if_neg hshort, if_neg hshort]
    let plan := v.plan pats none [] ++ copied [newline]
    have hraw : v.render ++ [newline] = renderTokens (plan.map Prod.fst) := by
      have := rawPlan_append (v.plan pats none []) (copied [newline])
      rw [v.rawPlan_plan pats none [], rawPlan_copied] at this
      exact this.symm
    have hvalid : ∀ t ∈ plan.map Prod.fst, t.Valid := by
      intro t ht
      obtain ⟨p, hp, rfl⟩ := List.mem_map.mp ht
      exact (Json.planValid pats none [] hv).append (planValid_copied (by decide)) p hp
    have hscanned : Scanned (Scope.new lineStart (.keys pats)) [] [] none
        (v.plan pats none []) := v.scanned hv rfl ⟨rfl, rfl, rfl⟩ rfl
    have hwrites := hscanned.writes.append (writes_copied _ [newline])
    obtain ⟨-, -, hout⟩ :=
      feed_tokens (s := Elider.new lineStart (.keys pats)) rfl hvalid
    rw [scanned, hraw, hout]
    calc ((Scope.new lineStart (.keys pats)).tokens (plan.map Prod.fst)).2
        = renderPlan lineStart plan := hwrites
      _ = renderPlan lineStart (v.plan pats none []) ++ [newline] := by
        rw [renderPlan_append, renderPlan_copied]

/-- **Which values are elided.** A document on a line of its own is handed on with
exactly the strings elided that are oversized and whose keys end in a listed suffix,
whatever chunks it is read in, if the result stays under the ceiling. A line that is
not scanned is handed on as it is. -/
theorem elides_by_keys {lineStart : Nat} {pats : List (List (List UInt8))} {v : Json}
    {rest : List UInt8} {bufs : List (List UInt8)} (hv : v.Valid) (hline : newline ∉ v.render)
    (hbufs : bufs.flatten = v.render ++ newline :: rest) :
    ∃ n bufs', bufs'.flatten = rest ∧ readLineElided lineStart (.keys pats) .init bufs =
      if (v.elided lineStart pats).length ≤ elideCeiling then
        (.complete (v.render.length + 1) n false, v.elided lineStart pats, bufs')
      else (.complete (v.render.length + 1) n true, [], bufs') := by
  obtain ⟨bufs', hrest, ⟨hfits, hread⟩ | ⟨hover, n, hread⟩⟩ :=
    readLine_eq lineStart (.keys pats) hline hbufs
  · rw [lineOut_json hv] at hfits hread
    exact ⟨_, bufs', hrest, by rw [if_pos hfits, hread]⟩
  · rw [lineOut_json hv] at hover
    exact ⟨n, bufs', hrest, by rw [if_neg (Nat.not_le_of_lt hover), hread]⟩

/-! ## a document with one oversized value -/

/-- `data`. -/
def dataKey : List UInt8 := [0x64, 0x61, 0x74, 0x61]

/-- `{"data":"aaa…"}`. -/
def dataDoc (n : Nat) : Json := .object [] (.cons [] dataKey [] (.str (letters n)) .nil)

theorem dataDoc_render (n : Nat) : (dataDoc n).render =
    [0x7B] ++ quote :: dataKey ++ [quote, 0x3A, quote] ++ letters n ++ [quote, 0x7D] := by
  simp [dataDoc, Json.render, Members.render]

theorem dataDoc_length (n : Nat) : (dataDoc n).render.length = n + 11 := by
  simp [dataDoc_render, dataKey, letters]

theorem dataKey_plain : Plain dataKey := by
  have hall : dataKey.all (fun b => decide (b ≠ Lib.backslash ∧ b ≠ quote)) = true := by decide
  exact fun b hb => of_decide_eq_true (List.all_eq_true.mp hall b hb)

theorem dataDoc_valid (n : Nat) : (dataDoc n).Valid := by
  have hkey : Whole dataKey ∧ dataKey.length ≤ elideStringBytes :=
    ⟨Plain.whole dataKey_plain, by decide⟩
  have hvalue : (Json.str (letters n)).Valid := by
    rw [Json.Valid]
    exact (plain_letters n).whole
  rw [dataDoc, Json.Valid, Members.Valid, Members.Valid]
  exact ⟨by simp, by simp, hkey, by simp, hvalue, trivial⟩

theorem dataDoc_newline (n : Nat) : newline ∉ (dataDoc n).render := by
  intro hmem
  rw [dataDoc_render] at hmem
  obtain hmem | hmem := List.mem_append.mp hmem
  · obtain hmem | hmem := List.mem_append.mp hmem
    · exact absurd hmem (by decide)
    · exact absurd (mem_letters hmem) (by decide)
  · exact absurd hmem (by decide)

/-- On a long line the value is elided. -/
theorem dataDoc_elided {n : Nat} (h : scanThreshold < n) : (dataDoc n).elided 0 [[dataKey]] =
    [0x7B] ++ quote :: dataKey ++ [quote, 0x3A, quote] ++ frame 9 (letters n) ++
      [quote, 0x7D, newline] := by
  have hlen : (letters n).length = n := List.length_replicate
  have hlong : ¬(dataDoc n).render.length + 1 ≤ scanThreshold := by
    rw [dataDoc_length]
    omega
  have hsize : elideStringBytes < n := Nat.lt_trans (by decide) h
  have hvalue : elidesValue [[dataKey]] (some (Scope.trackedKey dataKey)) [.unmatchable]
      (letters n) = true := by
    have hlisted : listed [[dataKey]] (some (Scope.trackedKey dataKey)) [.unmatchable] = true := by
      decide
    rw [elidesValue, hlisted, hlen, decide_eq_true hsize]
    rfl
  have hplan : (dataDoc n).plan [[dataKey]] none [] =
      copied [0x7B] ++ [(.str dataKey, false)] ++ copied [0x3A] ++ [(.str (letters n), true)] ++
        copied [0x7D] := by
    rw [← hvalue]
    simp [dataDoc, Json.plan, Members.plan, copied]
  rw [Json.elided, if_neg hlong, hplan]
  simp [copied, renderPlan, Token.render, dataKey]

theorem dataDoc_fits {n : Nat} (h : scanThreshold < n) (hn : n < 2 ^ 64) :
    ((dataDoc n).elided 0 [[dataKey]]).length ≤ elideCeiling := by
  have hframe := frame_letters_length (n := n) (Nat.lt_trans (by decide) h) hn 9 (by decide)
  have hbounds : 1000 ≤ elideCeiling := by decide
  rw [dataDoc_elided h]
  simp only [dataKey, List.length_append, List.length_cons, List.length_nil]
  omega

/-- A value of 300000 letters under its key. -/
theorem elides_by_keys_data : ∃ n bufs, bufs.flatten = [] ∧
    readLineElided 0 (.keys [[dataKey]]) .init [(dataDoc 300000).render ++ [newline]] =
      (.complete 300012 n false,
        [0x7B] ++ quote :: dataKey ++ [quote, 0x3A, quote] ++ frame 9 (letters 300000) ++
          [quote, 0x7D, newline], bufs) := by
  obtain ⟨n, bufs, hrest, hread⟩ := @elides_by_keys 0 [[dataKey]] _ [] _
    (dataDoc_valid 300000) (dataDoc_newline 300000) List.flatten_singleton
  rw [if_pos (dataDoc_fits (by decide) (by decide)), dataDoc_length,
    dataDoc_elided (by decide)] at hread
  exact ⟨n, bufs, hrest, hread⟩

/-- A short line is not scanned. -/
theorem dataDoc_unscanned {n : Nat} (h : n + 12 ≤ scanThreshold) : ∃ bufs,
    readLineElided 0 (.keys [[dataKey]]) .init [(dataDoc n).render ++ [newline]] =
      (.complete (n + 12) 0 false, (dataDoc n).render ++ [newline], bufs) := by
  have hshort : ((dataDoc n).render ++ [newline]).length ≤ scanThreshold := by
    rw [List.length_append, dataDoc_length, List.length_singleton]
    omega
  have hbounds : scanThreshold ≤ elideCeiling := by decide
  obtain ⟨bufs, -, ⟨-, hread⟩ | ⟨hover, -⟩⟩ := readLine_eq 0 (.keys [[dataKey]])
    (dataDoc_newline n) (List.flatten_singleton (l := (dataDoc n).render ++ newline :: []))
  · rw [lineOut, lineElided, if_pos hshort, if_pos hshort, dataDoc_length] at hread
    exact ⟨bufs, hread⟩
  · rw [lineOut, if_pos hshort] at hover
    omega

/-- **A listed value that is not elided**: it is oversized, but its line is not scanned. -/
theorem short_line_copied : (∃ bufs,
    readLineElided 0 (.keys [[dataKey]]) .init [(dataDoc 65537).render ++ [newline]] =
      (.complete 65549 0 false, (dataDoc 65537).render ++ [newline], bufs)) ∧
    elideStringBytes < (letters 65537).length ∧
    listed [[dataKey]] (some (Scope.trackedKey dataKey)) [.unmatchable] = true := by
  have hlen : (letters 65537).length = 65537 := List.length_replicate
  refine ⟨dataDoc_unscanned (by decide), ?_, by decide⟩
  rw [hlen]
  decide

end ClaudeReplay
