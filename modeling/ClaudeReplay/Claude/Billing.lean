import ClaudeReplay.Claude.Usage
import ClaudeReplay.Lib.Grouping
import Mathlib.Algebra.BigOperators.Group.List.Basic

/-!
# ClaudeReplay.Claude.Billing

What the token fold bills. The usage-bearing lines of a transcript fall into runs: the
lines of a run follow each other, name the same API call and ran on the same model, and
a line that names no call is a run of its own. A run is one call, and its tokens are, in
each class, the largest report of the run (`callTokens`). Beside it stand the advisor
entries of the run, each once (`consulted`).

The main result is `perModel_pushAll`: what the fold holds for a model is the sum of what
the runs cost on it and of the advisor entries billed under it, each charged as one
request (`charge`), so the long subset holds exactly the requests over the line. The classes
are 64-bit words: the sum is one modulo `2 ^ 64`, and of the long subset that is so as long
as the prompts the line is held against do not wrap themselves (`PromptsFit`).
-/

namespace ClaudeReplay.Claude

open Lib

/-! ## the calls of a transcript -/

/-- A usage-bearing line: the call it names, the model it ran on, its usage. -/
structure Report where
  key : Option String
  model : String
  usage : Lib.Value

/-- The reports of the lines, `model` being the last model seen before them. -/
def reports (model : String) : List Lib.Value → List Report
  | [] => []
  | v :: vs =>
    let m := (messageModel v).getD model
    match pointer v ["message", "usage"] with
    | some u => ⟨usageKey v, m, u⟩ :: reports m vs
    | none => reports m vs

/-- The last model the lines name. -/
def lastModel (model : String) (lines : List Lib.Value) : String :=
  lines.foldl (fun m v => (messageModel v).getD m) model

/-- Two reports of one API call on one model. -/
def sameCall (a b : Report) : Bool := a.key.isSome && a.key = b.key && a.model = b.model

/-- The calls of a transcript: its maximal runs of reports of one call. -/
def runs (lines : List Lib.Value) : List (List Report) := (reports "" lines).splitBy sameCall

/-- The largest report of a token class in a run. -/
def largest (cls : TokenCounts → Nat) (run : List Report) : Nat :=
  (run.map fun r => cls (usageTokens r.usage)).foldr max 0

/-- The tokens of a call. -/
def callTokens (run : List Report) : TokenCounts :=
  { input := largest (·.input) run
    cacheCreation := largest (·.cacheCreation) run
    cacheRead := largest (·.cacheRead) run
    output := largest (·.output) run
    cacheCreation1h := largest (·.cacheCreation1h) run }

/-- The advisor entries of a call: a line brings those past the ones seen before it. -/
def consulted (run : List Report) : List Lib.Value :=
  run.foldl (fun entries r => entries ++ (advisors r.usage).drop entries.length) []

/-- The tokens of one request, in the long subset as well when its prompt is over the
line of its model. -/
def charge (catalog : Catalog) (model : String) (t : TokenCounts) : TokenCounts :=
  { t with
    longPrompt :=
      if (catalog.longPromptOver model).any (· < sent t) then longOf t else {} }

/-- What a call costs on `model`. -/
def callCharge (catalog : Catalog) (model : String) (run : List Report) : TokenCounts :=
  if run.getLast?.any (·.model = model) then charge catalog model (callTokens run) else 0

/-- What an advisor entry costs on `model`. -/
def advisorCharge (catalog : Catalog) (model : String) (entry : Lib.Value) : TokenCounts :=
  if strField entry "model" = some model then charge catalog model (usageTokens entry) else 0

/-- What the calls cost on `model`, and the advisors they consulted. -/
def cost (catalog : Catalog) (model : String) (calls : List (List Report)) : TokenCounts :=
  (calls.map (callCharge catalog model)).sum +
    ((calls.flatMap consulted).map (advisorCharge catalog model)).sum

/-- The prompt of every call, and of every advisor, is a 64-bit word. -/
structure PromptsFit (calls : List (List Report)) : Prop where
  own : ∀ run ∈ calls, sent (callTokens run) < 2 ^ 64
  advisors : ∀ run ∈ calls, ∀ entry ∈ consulted run, sent (usageTokens entry) < 2 ^ 64

theorem reports_concat (model : String) (lines : List Lib.Value) (v : Lib.Value) :
    reports model (lines ++ [v]) =
      reports model lines ++ reports (lastModel model lines) [v] := by
  induction lines generalizing model with
  | nil => rfl
  | cons w lines ih =>
    simp only [List.cons_append, reports, ih]
    split
    · rfl
    · rfl

theorem largest_concat (cls : TokenCounts → Nat) (run : List Report) (r : Report) :
    largest cls (run ++ [r]) = max (largest cls run) (cls (usageTokens r.usage)) := by
  induction run with
  | nil => simp [largest]
  | cons x run ih =>
    simp only [largest, List.cons_append, List.map_cons, List.foldr_cons] at ih ⊢
    rw [ih, max_assoc]

theorem callTokens_concat (run : List Report) (r : Report) :
    callTokens (run ++ [r]) = larger (callTokens run) (usageTokens r.usage) := by
  simp only [callTokens, larger, largest_concat]

theorem callTokens_singleton (r : Report) : callTokens [r] = usageTokens r.usage := by
  simp [callTokens, largest, usageTokens]

theorem consulted_concat (run : List Report) (r : Report) :
    consulted (run ++ [r]) = consulted run ++ (advisors r.usage).drop (consulted run).length := by
  simp [consulted]

theorem consulted_singleton (r : Report) : consulted [r] = advisors r.usage := by
  simp [consulted]

/-! ## the same tokens -/

/-- The classes of a bucket without its long subset. -/
def plain (t : TokenCounts) : TokenCounts := { t with longPrompt := 0 }

theorem words_words (t : TokenCounts) : words (words t) = words t := by simp [words]

theorem words_add_words (s t : TokenCounts) : words (words s + words t) = words (s + t) := by
  simp only [words, TokenCounts.add_def, LongPrompt.add_def, ← Nat.add_mod]

theorem plain_add (s t : TokenCounts) : plain (s + t) = plain s + plain t := by
  simp [plain, TokenCounts.add_def]

theorem plain_words (t : TokenCounts) : plain (words t) = words (plain t) := rfl

/-- The same tokens, but for what wraps; of the long subset too, if the prompts fit. -/
structure Same (fit : Prop) (s t : TokenCounts) : Prop where
  plain : words (plain s) = words (plain t)
  whole : fit → words s = words t

namespace Same

variable {fit fit' : Prop} {s t u v : TokenCounts}

theorem of_words (h : words s = words t) : Same fit s t where
  plain := by rw [← plain_words, h, plain_words]
  whole _ := h

theorem refl (t : TokenCounts) : Same fit t t := of_words rfl

theorem trans (h : Same fit s t) (h' : Same fit t u) : Same fit s u :=
  ⟨h.plain.trans h'.plain, fun hfit => (h.whole hfit).trans (h'.whole hfit)⟩

theorem mono (h : Same fit s t) (hfit : fit' → fit) : Same fit' s t :=
  ⟨h.plain, fun h' => h.whole (hfit h')⟩

theorem add (h : Same fit s t) (h' : Same fit u v) : Same fit (s + u) (t + v) where
  plain := by
    rw [plain_add, plain_add, ← words_add_words, h.plain, h'.plain, words_add_words]
  whole hfit := by
    rw [← words_add_words, h.whole hfit, h'.whole hfit, words_add_words]

end Same

/-! ## one credit -/

/-- What a credit adds to its bucket. -/
def added (tokens : TokenCounts) (long : Option TokenCounts) : TokenCounts :=
  { tokens with longPrompt := tokens.longPrompt + ((long.map longOf).getD 0) }

theorem count_creditTo (perModel : StrMap TokenCounts) (model m : String) (tokens : TokenCounts)
    (long : Option TokenCounts) :
    (creditTo perModel model tokens long).count m =
      if model = m then words (perModel.count m + added tokens long) else perModel.count m := by
  simp only [creditTo, StrMap.count, StrMap.getElem?_insert]
  by_cases h : model = m
  · subst h
    rw [if_pos rfl, if_pos rfl, Option.getD_some]
    cases long with
    | none => simp [added]
    | some long =>
      simp only [added, Option.map_some, Option.getD_some, TokenCounts.add_def, words,
        LongPrompt.add_def, Nat.mod_mod, Nat.mod_add_mod, Nat.add_assoc]
  · rw [if_neg h, if_neg h]

/-- A credit is added to its bucket. -/
theorem same_creditTo {fit : Prop} (perModel : StrMap TokenCounts) (model m : String)
    (tokens : TokenCounts) (long : Option TokenCounts) :
    Same fit ((creditTo perModel model tokens long).count m)
      (perModel.count m + if model = m then added tokens long else 0) := by
  rw [count_creditTo]
  split
  · exact .of_words (words_words _)
  · rw [add_zero]
    exact .refl _

/-- Every bucket is of words. -/
def Wrapped (perModel : StrMap TokenCounts) : Prop :=
  ∀ m, words (perModel.count m) = perModel.count m

theorem Wrapped.creditTo {perModel : StrMap TokenCounts} (h : Wrapped perModel) (model : String)
    (tokens : TokenCounts) (long : Option TokenCounts) :
    Wrapped (creditTo perModel model tokens long) := by
  intro m
  rw [count_creditTo]
  split
  · exact words_words _
  · exact h m

theorem prompt_of_fits {t : TokenCounts} (h : sent t < 2 ^ 64) : prompt t = sent t :=
  Nat.mod_eq_of_lt h

/-- A request credited whole, long when it is over the line. -/
theorem same_charge (catalog : Catalog) (model : String) {t : TokenCounts}
    (h : t.longPrompt = 0) :
    Same (sent t < 2 ^ 64)
      (added t (if (catalog.longPromptOver model).any (· < prompt t) then some t else none))
      (charge catalog model t) := by
  refine ⟨rfl, fun hfit => congrArg words ?_⟩
  simp only [added, charge, h, zero_add, prompt_of_fits hfit]
  split
  · rfl
  · rfl

theorem same_creditAdvisor (catalog : Catalog) (perModel : StrMap TokenCounts)
    (entry : Lib.Value) (m : String) :
    Same (sent (usageTokens entry) < 2 ^ 64) ((creditAdvisor catalog perModel entry).count m)
      (perModel.count m + advisorCharge catalog m entry) := by
  rw [creditAdvisor, advisorCharge]
  cases h : strField entry "model" with
  | none => simpa using Same.refl _
  | some model =>
    refine (same_creditTo perModel model m _ _).trans ((Same.refl _).add ?_)
    by_cases hm : model = m
    · subst hm
      rw [if_pos rfl, if_pos rfl]
      exact same_charge catalog model rfl
    · rw [if_neg hm, if_neg (by simpa using hm)]
      exact .refl _

theorem same_creditAdvisors (catalog : Catalog) (entries : List Lib.Value)
    (perModel : StrMap TokenCounts) (m : String) :
    Same (∀ entry ∈ entries, sent (usageTokens entry) < 2 ^ 64)
      ((entries.foldl (creditAdvisor catalog) perModel).count m)
      (perModel.count m + (entries.map (advisorCharge catalog m)).sum) := by
  induction entries generalizing perModel with
  | nil => simpa using Same.refl _
  | cons e entries ih =>
    rw [List.foldl_cons, List.map_cons, List.sum_cons, ← add_assoc]
    refine ((ih _).mono fun h x hx => h x (List.mem_cons_of_mem _ hx)).trans (.add ?_ (.refl _))
    exact (same_creditAdvisor catalog perModel e m).mono fun h => h e List.mem_cons_self

theorem Wrapped.creditAdvisors (catalog : Catalog) (entries : List Lib.Value)
    {perModel : StrMap TokenCounts} (h : Wrapped perModel) :
    Wrapped (entries.foldl (creditAdvisor catalog) perModel) := by
  induction entries generalizing perModel with
  | nil => exact h
  | cons e entries ih =>
    refine ih ?_
    rw [creditAdvisor]
    split
    · exact h
    · exact h.creditTo _ _ _

theorem sent_le_larger (c s : TokenCounts) : sent c ≤ sent (larger c s) := by
  simp only [sent, larger]
  omega

/-- The growth of a call, on top of what it was charged, is the charge of its larger
report: also when the prompt crossed the line just now. -/
theorem charge_add_growth (catalog : Catalog) (model : String) (c s : TokenCounts) :
    Same (sent (larger c s) < 2 ^ 64)
      (charge catalog model c +
        added (growth s c)
          (longCredit ((catalog.longPromptOver model).map fun line =>
              (decide (line < prompt (larger c s)), decide (line < prompt c)))
            (growth s c) (larger c s)))
      (charge catalog model (larger c s)) := by
  have hclass (a b : Nat) : a + (b - a) = max a b := by omega
  have hmono := sent_le_larger c s
  constructor
  case plain =>
    refine congrArg words ?_
    simp [plain, charge, added, growth, larger, TokenCounts.add_def, hclass]
  case whole =>
    intro hfit
    rw [prompt_of_fits hfit, prompt_of_fits (hmono.trans_lt hfit)]
    refine congrArg words ?_
    cases hover : catalog.longPromptOver model with
    | none =>
      ext1 <;> simp [charge, added, longCredit, growth, larger, hover, TokenCounts.add_def, hclass,
        ← LongPrompt.zero_def]
    | some line =>
      by_cases hbefore : line < sent c
      · have hnow : line < sent (larger c s) := by omega
        ext1 <;> simp [charge, added, longCredit, hover, hbefore, hnow, TokenCounts.add_def]
        all_goals simp [growth, larger, longOf, LongPrompt.add_def, hclass]
      · by_cases hnow : line < sent (larger c s)
        · ext1 <;> simp [charge, added, longCredit, hover, hbefore, hnow, TokenCounts.add_def]
          all_goals simp [growth, larger, longOf, LongPrompt.add_def, hclass]
        · ext1 <;> simp [charge, added, longCredit, hover, hbefore, hnow, TokenCounts.add_def]
          all_goals simp [growth, larger, LongPrompt.add_def, hclass]

/-! ## the fold -/

/-- The fold after the reports `rs`, which form the calls `calls`. -/
structure Billed (catalog : Catalog) (rs : List Report) (calls : List (List Report))
    (acc : MetricsAcc) : Prop where
  perModel : ∀ m, Same (PromptsFit calls) (acc.perModel.count m) (cost catalog m calls)
  wrapped : Wrapped acc.perModel
  key : acc.lastUsageKey = rs.getLast?.bind (·.key)
  model : acc.lastUsageModel = rs.getLast?.map (·.model)
  credited : ∀ front run, calls = front ++ [run] → acc.credited = callTokens run
  entries : ∀ front run, calls = front ++ [run] → acc.creditedAdvisors = (consulted run).length

/-- What a repeat adds to a bucket: what the call grew by, and its new advisor entries. -/
theorem same_creditUsage_repeat (catalog : Catalog) {acc : MetricsAcc} {key : Option String}
    (usageId : Option String) {model : String} (u : Lib.Value)
    (hrepeat : isRepeat acc key model = true) (m : String) :
    Same (∀ entry ∈ (advisors u).drop acc.creditedAdvisors, sent (usageTokens entry) < 2 ^ 64)
      ((creditUsage catalog acc key usageId model u).perModel.count m)
      (acc.perModel.count m +
        (if model = m then
          added (growth (usageTokens u) acc.credited)
            (longCredit ((catalog.longPromptOver model).map fun line =>
                (decide (line < prompt (larger acc.credited (usageTokens u))),
                  decide (line < prompt acc.credited)))
              (growth (usageTokens u) acc.credited) (larger acc.credited (usageTokens u)))
        else 0) +
        (((advisors u).drop acc.creditedAdvisors).map (advisorCharge catalog m)).sum) := by
  simp only [creditUsage, creditAdvisors, hrepeat, if_true, Bool.true_and]
  exact (same_creditAdvisors catalog _ _ m).trans (.add (same_creditTo _ _ _ _ _) (.refl _))

/-- What the first line of a call adds to a bucket: its charge, and its advisor entries. -/
theorem same_creditUsage_opens (catalog : Catalog) {acc : MetricsAcc} {key : Option String}
    (usageId : Option String) {model : String} (u : Lib.Value)
    (hrepeat : isRepeat acc key model = false) (m : String) :
    Same (sent (usageTokens u) < 2 ^ 64 ∧
        ∀ entry ∈ advisors u, sent (usageTokens entry) < 2 ^ 64)
      ((creditUsage catalog acc key usageId model u).perModel.count m)
      (acc.perModel.count m +
        (if model = m then charge catalog model (usageTokens u) else 0) +
        ((advisors u).map (advisorCharge catalog m)).sum) := by
  have hlong : longCredit ((catalog.longPromptOver model).map fun line =>
      (decide (line < prompt (usageTokens u)), false)) (usageTokens u) (usageTokens u) =
        if (catalog.longPromptOver model).any (· < prompt (usageTokens u)) then some (usageTokens u)
        else none := by
    cases catalog.longPromptOver model with
    | none => rfl
    | some line =>
      by_cases h : line < prompt (usageTokens u)
      · simp [longCredit, h]
      · simp [longCredit, h]
  simp only [creditUsage, creditAdvisors, hrepeat, Bool.false_eq_true, if_false, Bool.false_and,
    List.drop_zero, hlong]
  refine ((same_creditAdvisors catalog _ _ m).mono And.right).trans (.add ?_ (.refl _))
  refine (same_creditTo _ _ _ _ _).trans (.add (.refl _) ?_)
  split
  · exact (same_charge catalog model rfl).mono And.left
  · exact .refl _

theorem Wrapped.creditUsage (catalog : Catalog) {acc : MetricsAcc} (h : Wrapped acc.perModel)
    (key usageId : Option String) (model : String) (u : Lib.Value) :
    Wrapped (creditUsage catalog acc key usageId model u).perModel :=
  (h.creditTo _ _ _).creditAdvisors catalog _

/-- The fold takes a line for a repeat when the last report is of the same call. -/
theorem Billed.isRepeat_eq {catalog : Catalog} {rs : List Report} {calls : List (List Report)}
    {acc : MetricsAcc} (h : Billed catalog rs calls acc) (r : Report) :
    isRepeat acc r.key r.model = rs.getLast?.any (sameCall · r) := by
  rw [isRepeat, h.key, h.model]
  cases rs.getLast? with
  | none => simp
  | some x => simp only [Option.bind_some, Option.map_some, Option.any_some, sameCall]; grind

/-- What a repeat of a call adds to the call's charge. -/
theorem callCharge_concat (catalog : Catalog) (m : String) {run : List Report} {x r : Report}
    (hrun : run.getLast? = some x) (hmodel : x.model = r.model) :
    Same (sent (callTokens (run ++ [r])) < 2 ^ 64)
      (callCharge catalog m run +
        (if r.model = m then
          added (growth (usageTokens r.usage) (callTokens run))
            (longCredit ((catalog.longPromptOver r.model).map fun line =>
                (decide (line < prompt (larger (callTokens run) (usageTokens r.usage))),
                  decide (line < prompt (callTokens run))))
              (growth (usageTokens r.usage) (callTokens run))
              (larger (callTokens run) (usageTokens r.usage)))
        else 0))
      (callCharge catalog m (run ++ [r])) := by
  simp only [callCharge, hrun, List.getLast?_concat, Option.any_some, decide_eq_true_eq,
    hmodel, callTokens_concat]
  by_cases hm : r.model = m
  · subst hm
    rw [if_pos rfl, if_pos rfl, if_pos rfl]
    exact charge_add_growth _ _ _ _
  · rw [if_neg hm, if_neg hm, if_neg hm, add_zero]
    exact .refl _

/-- The prompts fit before a line that repeats the last call, if they do after it. -/
theorem PromptsFit.of_repeat {front : List (List Report)} {run : List Report} {r : Report}
    (h : PromptsFit (front ++ [run ++ [r]])) : PromptsFit (front ++ [run]) := by
  constructor
  case own =>
    intro run' hrun
    obtain hrun | hrun := List.mem_append.mp hrun
    · exact h.own run' (List.mem_append_left _ hrun)
    · obtain rfl := List.mem_singleton.mp hrun
      have hlast := h.own (run' ++ [r]) (by simp)
      rw [callTokens_concat] at hlast
      exact (sent_le_larger _ _).trans_lt hlast
  case advisors =>
    intro run' hrun entry hentry
    obtain hrun | hrun := List.mem_append.mp hrun
    · exact h.advisors run' (List.mem_append_left _ hrun) entry hentry
    · obtain rfl := List.mem_singleton.mp hrun
      refine h.advisors (run' ++ [r]) (by simp) entry ?_
      rw [consulted_concat]
      exact List.mem_append_left _ hentry

theorem cost_append (catalog : Catalog) (m : String) (calls calls' : List (List Report)) :
    cost catalog m (calls ++ calls') = cost catalog m calls + cost catalog m calls' := by
  simp only [cost, List.map_append, List.sum_append, List.flatMap_append]
  abel

theorem cost_singleton (catalog : Catalog) (m : String) (run : List Report) :
    cost catalog m [run] =
      callCharge catalog m run + ((consulted run).map (advisorCharge catalog m)).sum := by
  simp [cost]

/-- A line that repeats the call of the last run keeps the fold in step. -/
theorem Billed.repeats {catalog : Catalog} {rs : List Report} {front : List (List Report)}
    {run : List Report} {x : Report} {acc : MetricsAcc}
    (h : Billed catalog rs (front ++ [run]) acc) (usageId : Option String) (r : Report)
    (hrun : run.getLast? = some x) (hx : rs.getLast? = some x) (hsame : sameCall x r = true) :
    Billed catalog (rs ++ [r]) (front ++ [run ++ [r]])
      (creditUsage catalog acc r.key usageId r.model r.usage) := by
  have hrepeat : isRepeat acc r.key r.model = true := by
    rw [h.isRepeat_eq, hx, Option.any_some, hsame]
  have hcredited := h.credited front run rfl
  have hentries := h.entries front run rfl
  obtain ⟨⟨-, hkey⟩, hmodel⟩ : (x.key.isSome = true ∧ x.key = r.key) ∧ x.model = r.model := by
    simpa only [sameCall, Bool.and_eq_true, decide_eq_true_eq] using hsame
  have hlast {front' : List (List Report)} {run' : List Report}
      (heq : front ++ [run ++ [r]] = front' ++ [run']) : run ++ [r] = run' := by
    have := congrArg List.getLast? heq
    simpa using this
  constructor
  case perModel =>
    intro m
    have hnew := same_creditUsage_repeat catalog usageId r.usage hrepeat m
    rw [hcredited, hentries] at hnew
    refine (hnew.mono fun hfit entry hentry => ?_).trans ?_
    · refine hfit.advisors (run ++ [r]) (by simp) entry ?_
      rw [consulted_concat]
      exact List.mem_append_right _ hentry
    · have hbefore := (h.perModel m).mono (PromptsFit.of_repeat (r := r))
      have hgrown := (callCharge_concat catalog m hrun hmodel).mono fun hfit :
        PromptsFit (front ++ [run ++ [r]]) => hfit.own (run ++ [r]) (by simp)
      have harrange (a b c d e : TokenCounts) : a + (b + c) + d + e = a + ((b + d) + (c + e)) := by
        abel
      rw [cost_append, cost_singleton] at hbefore ⊢
      rw [consulted_concat, List.map_append, List.sum_append]
      refine ((hbefore.add (.refl _)).add (.refl _)).trans ?_
      rw [harrange]
      exact (Same.refl _).add (hgrown.add (.refl _))
  case wrapped => exact h.wrapped.creditUsage catalog _ _ _ _
  case key => simp [creditUsage, creditAdvisors, hrepeat, h.key, hx, hkey]
  case model => simp [creditUsage, creditAdvisors, hrepeat, h.model, hx, hmodel]
  case credited =>
    intro front' run' heq
    rw [← hlast heq, callTokens_concat]
    simp [creditUsage, creditAdvisors, hrepeat, hcredited]
  case entries =>
    intro front' run' heq
    rw [← hlast heq, consulted_concat]
    simp only [creditUsage, creditAdvisors, hrepeat, if_true, hentries, List.length_append,
      List.length_drop]
    omega

/-- A line of another call keeps the fold in step: it opens a run. -/
theorem Billed.opens {catalog : Catalog} {rs : List Report} {calls : List (List Report)}
    {acc : MetricsAcc} (h : Billed catalog rs calls acc) (usageId : Option String) (r : Report)
    (hopen : ∀ x, rs.getLast? = some x → sameCall x r = false) :
    Billed catalog (rs ++ [r]) (calls ++ [[r]])
      (creditUsage catalog acc r.key usageId r.model r.usage) := by
  have hrepeat : isRepeat acc r.key r.model = false := by
    rw [h.isRepeat_eq]
    cases hx : rs.getLast? with
    | none => rfl
    | some x => simpa using hopen x hx
  have hlast {front' : List (List Report)} {run' : List Report}
      (heq : calls ++ [[r]] = front' ++ [run']) : [r] = run' := by
    have := congrArg List.getLast? heq
    simpa using this
  constructor
  case perModel =>
    intro m
    have hnew := same_creditUsage_opens catalog usageId r.usage hrepeat m
    have hfirst : callCharge catalog m [r] =
        if r.model = m then charge catalog r.model (usageTokens r.usage) else 0 := by
      rw [callCharge, callTokens_singleton, List.getLast?_singleton, Option.any_some]
      by_cases hm : r.model = m
      · simp [hm]
      · simp [hm]
    rw [cost_append, cost_singleton, consulted_singleton, hfirst, ← add_assoc]
    refine (hnew.mono fun hfit => ?_).trans (.add (.add ((h.perModel m).mono fun hfit => ?_)
      (.refl _)) (.refl _))
    · have hown := hfit.own [r] (by simp)
      have hadvisors := hfit.advisors [r] (by simp)
      rw [callTokens_singleton] at hown
      rw [consulted_singleton] at hadvisors
      exact ⟨hown, hadvisors⟩
    · exact ⟨fun run hrun => hfit.own run (List.mem_append_left _ hrun),
        fun run hrun => hfit.advisors run (List.mem_append_left _ hrun)⟩
  case wrapped => exact h.wrapped.creditUsage catalog _ _ _ _
  case key => simp [creditUsage, creditAdvisors, hrepeat]
  case model => simp [creditUsage, creditAdvisors, hrepeat]
  case credited =>
    intro front' run' heq
    rw [← hlast heq, callTokens_singleton]
    simp [creditUsage, creditAdvisors, hrepeat]
  case entries =>
    intro front' run' heq
    rw [← hlast heq, consulted_singleton]
    simp [creditUsage, creditAdvisors, hrepeat]

/-- A usage-bearing line keeps the fold in step with the calls. -/
theorem Billed.credit {catalog : Catalog} {rs : List Report} {acc : MetricsAcc}
    (h : Billed catalog rs (rs.splitBy sameCall) acc) (usageId : Option String) (r : Report) :
    Billed catalog (rs ++ [r]) ((rs ++ [r]).splitBy sameCall)
      (creditUsage catalog acc r.key usageId r.model r.usage) := by
  rcases splitBy_concat sameCall rs r with
    ⟨front, run, x, hcalls, hrun, hx, hsame, hnext⟩ | ⟨hopen, hnext⟩
  · rw [hcalls] at h
    rw [hnext]
    exact h.repeats usageId r hrun hx hsame
  · rw [hnext]
    exact h.opens usageId r hopen

theorem model_push (catalog : Catalog) (parseTs : String → Option Int) (acc : MetricsAcc)
    (v : Lib.Value) : (push catalog parseTs acc v).model = (messageModel v).getD acc.model := by
  simp only [push]
  split
  · rfl
  · rfl

theorem model_pushAll (catalog : Catalog) (parseTs : String → Option Int)
    (lines : List Lib.Value) :
    (pushAll catalog parseTs lines).model = lastModel "" lines := by
  induction lines using List.reverseRecOn with
  | nil => rfl
  | append_singleton lines v ih =>
    rw [pushAll, List.foldl_concat, model_push, ← pushAll, ih, lastModel, lastModel,
      List.foldl_concat]

/-- The fold of a whole transcript is in step with its calls. -/
theorem billed_pushAll (catalog : Catalog) (parseTs : String → Option Int)
    (lines : List Lib.Value) :
    Billed catalog (reports "" lines) (runs lines) (pushAll catalog parseTs lines) := by
  induction lines using List.reverseRecOn with
  | nil =>
    constructor
    case perModel => exact fun m => .of_words rfl
    case wrapped => exact fun m => rfl
    all_goals simp [runs, reports, pushAll]
  | append_singleton lines v ih =>
    have hmodel := model_pushAll catalog parseTs lines
    rw [pushAll, List.foldl_concat, ← pushAll]
    simp only [runs, reports_concat, reports] at ih ⊢
    simp only [push, hmodel]
    cases hu : pointer v ["message", "usage"] with
    | none =>
      rw [List.append_nil]
      exact ⟨ih.perModel, ih.wrapped, ih.key, ih.model, ih.credited, ih.entries⟩
    | some u =>
      have hstep := ih.credit (callId v "/")
        ⟨usageKey v, (messageModel v).getD (lastModel "" lines), u⟩
      exact ⟨hstep.perModel, hstep.wrapped, hstep.key, hstep.model, hstep.credited,
        hstep.entries⟩

/-- The long subset of a bucket is part of it, class by class. -/
def Subset (t : TokenCounts) : Prop := t.longPrompt ≤ longOf t

theorem Subset.add {s t : TokenCounts} (hs : Subset s) (ht : Subset t) : Subset (s + t) := by
  simp only [Subset, LongPrompt.le_def, longOf, TokenCounts.add_def, LongPrompt.add_def] at *
  omega

theorem subset_zero : Subset 0 := le_refl (0 : LongPrompt)

theorem subset_charge (catalog : Catalog) (model : String) (t : TokenCounts) :
    Subset (charge catalog model t) := by
  simp only [Subset, charge]
  split
  · exact le_refl (longOf t)
  · exact zero_le

theorem subset_sum {ts : List TokenCounts} (h : ∀ t ∈ ts, Subset t) : Subset ts.sum := by
  induction ts with
  | nil => exact subset_zero
  | cons t ts ih =>
    rw [List.sum_cons]
    exact (h t (by simp)).add (ih fun t ht => h t (by simp [ht]))

theorem subset_cost (catalog : Catalog) (m : String) (calls : List (List Report)) :
    Subset (cost catalog m calls) := by
  apply Subset.add
  · refine subset_sum fun t ht => ?_
    obtain ⟨run, -, rfl⟩ := List.mem_map.mp ht
    rw [callCharge]
    split
    · exact subset_charge catalog m _
    · exact subset_zero
  · refine subset_sum fun t ht => ?_
    obtain ⟨entry, -, rfl⟩ := List.mem_map.mp ht
    rw [advisorCharge]
    split
    · exact subset_charge catalog m _
    · exact subset_zero

/-- **Each call is billed once, at its largest report**: what the fold holds for a model is
what its calls and the advisors they consulted cost on it, as 64-bit sums. The long subset is
made of the requests over the line, as long as the prompts fit; and it is never more than the
whole, as long as the sums do. -/
theorem perModel_pushAll (catalog : Catalog) (parseTs : String → Option Int)
    (lines : List Lib.Value) (m : String) :
    let bucket := (pushAll catalog parseTs lines).perModel.count m
    let billed := ((runs lines).map (callCharge catalog m)).sum +
      (((runs lines).flatMap consulted).map (advisorCharge catalog m)).sum
    plain bucket = words (plain billed) ∧
      (PromptsFit (runs lines) → bucket = words billed ∧
        (words billed = billed → bucket.longPrompt ≤ longOf bucket)) := by
  intro bucket billed
  have hbilled := billed_pushAll catalog parseTs lines
  have hsame : Same (PromptsFit (runs lines)) bucket billed := hbilled.perModel m
  have hwrapped : words bucket = bucket := hbilled.wrapped m
  refine ⟨?_, fun hfit => ?_⟩
  · rw [← hsame.plain, ← plain_words, hwrapped]
  · have hwhole : bucket = words billed := by rw [← hsame.whole hfit, hwrapped]
    refine ⟨hwhole, fun hsum => ?_⟩
    rw [hwhole, hsum]
    exact subset_cost catalog m (runs lines)

/-- A usage line of the model `opus`. -/
def usageLine (message usage : List (String × Lib.Value)) : Lib.Value :=
  .obj [("message", .obj (("model", .str "opus") :: ("usage", .obj usage) :: message))]

/-- An advisor entry of the model `haiku` with a prompt of 150 tokens. -/
def advisorEntry : Lib.Value :=
  .obj [("type", .str "advisor_message"), ("model", .str "haiku"), ("input_tokens", .num 150)]

/-- A call whose prompt grows across the line, with an advisor. -/
theorem perModel_pushAll_crossing :
    let catalog : Catalog := ⟨fun _ => some 100, fun _ => false⟩
    let lines := [usageLine [("id", .str "msg_01")] [("input_tokens", .num 60)],
      usageLine [("id", .str "msg_01")]
        [("input_tokens", .num 120), ("iterations", .arr [advisorEntry])]]
    let bucket := (pushAll catalog (fun _ => none) lines).perModel.count "opus"
    (runs lines).length = 1 ∧ bucket = { input := 120, longPrompt := { input := 120 } } ∧
      bucket.longPrompt ≤ longOf bucket := by
  intro catalog lines bucket
  have hfit : PromptsFit (runs lines) := ⟨by decide +kernel, by decide +kernel⟩
  have hbilled := (perModel_pushAll catalog (fun _ => none) lines "opus").2 hfit
  exact ⟨by decide +kernel, by decide +kernel, hbilled.2 (by decide +kernel)⟩

/-- Two neighbouring lines that name no call are added up, though neither key nor model tells
them apart; the long subset of a model holds an advisor's request over the line, though no call
ran on that model; and two calls that fill a 64-bit word come to nothing. -/
theorem keyless_lines_add :
    let catalog : Catalog :=
      ⟨fun m => if m = "haiku" then some 100 else none, fun _ => false⟩
    let keyless := [2, 3].map fun n => usageLine [] [("input_tokens", .num n)]
    let advised := [usageLine [("id", .str "msg_01")] [("iterations", .arr [advisorEntry])]]
    let halves := ["msg_01", "msg_02"].map fun id =>
      usageLine [("id", .str id)] [("input_tokens", .num (2 ^ 63))]
    ((reports "" keyless).splitBy fun a b => a.key = b.key && a.model = b.model).length = 1 ∧
      largest (·.input) (reports "" keyless) = 3 ∧
      ((pushAll catalog (fun _ => none) keyless).perModel.count "opus").input = 5 ∧
      (∀ r ∈ reports "" advised, r.model ≠ "haiku") ∧
      ((pushAll catalog (fun _ => none) advised).perModel.count "haiku").longPrompt.input =
        150 ∧
      ((pushAll catalog (fun _ => none) halves).perModel.count "opus").input = 0 := by
  decide +kernel

end ClaudeReplay.Claude
