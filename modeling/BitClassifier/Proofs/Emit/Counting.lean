import BitClassifier.Proofs.Emit.Execution
import BitClassifier.Proofs.Prune.NormalForm
import BitClassifier.Proofs.Prune.WorstCase

/-!
# Counted instructions

A profiled classifier counts while its expression is evaluated: a shorthand adds one in front of its
operand and takes it back behind it, if the evaluation gets there (`Counts.operand`). So the count
for an input is known from the predicate (`Predicate.counted`). It may be more than the instructions
that are executed, but not for a predicate in normal form, where the left operands are plain tests
(`Normal.counted_le`).
-/

namespace BitClassifier

open Source
open Piece (lexemes)

namespace Source

/-! ### Functions that are called -/

/-- The functions that an expression names. -/
def Expr.functions : Expr → List String
  | .number _ | .name _ => []
  | .call function => [function]
  | .not e => e.functions
  | .binary _ left right => left.functions ++ right.functions
  | .cond test yes no => test.functions ++ (yes.functions ++ no.functions)

/-- No other functions are called. -/
theorem Expr.calls_subset {σ : Scope} {e : Expr} {v : CodeValue} {calls : List String}
    (h : e.run σ = some (v, calls)) : calls ⊆ e.functions := by
  induction e generalizing v calls with
  | number n =>
    rw [run] at h
    split at h <;> simp_all
  | name text => simp_all [run]
  | call function => simp_all [run, functions]
  | not e ih =>
    simp only [run, Option.bind_eq_bind, Option.bind_eq_some_iff] at h
    obtain ⟨⟨v', calls'⟩, hoperand, heq⟩ := h
    obtain rfl : calls' = calls := (Prod.mk.inj (Option.some.inj heq)).2
    exact ih hoperand
  | binary op left right ihLeft ihRight =>
    simp only [run, Option.bind_eq_bind, Option.bind_eq_some_iff] at h
    obtain ⟨⟨v', calls'⟩, hleft, h⟩ := h
    split at h
    · obtain rfl : calls' = calls := (Prod.mk.inj (Option.some.inj h)).2
      exact List.subset_append_of_subset_left _ (ihLeft hleft)
    · obtain ⟨⟨v'', calls''⟩, hright, heq⟩ := Option.bind_eq_some_iff.mp h
      obtain rfl : calls' ++ calls'' = calls := (Prod.mk.inj (Option.some.inj heq)).2
      exact List.append_subset.mpr ⟨List.subset_append_of_subset_left _ (ihLeft hleft),
        List.subset_append_of_subset_right _ (ihRight hright)⟩
  | cond test yes no ihTest ihYes ihNo =>
    simp only [run, Option.bind_eq_bind, Option.bind_eq_some_iff] at h
    obtain ⟨⟨v', calls'⟩, htest, h⟩ := h
    have htest' := List.subset_append_of_subset_left (yes.functions ++ no.functions) (ihTest htest)
    split at h
    · obtain ⟨⟨v'', calls''⟩, hno, heq⟩ := Option.bind_eq_some_iff.mp h
      obtain rfl : calls' ++ calls'' = calls := (Prod.mk.inj (Option.some.inj heq)).2
      have hno' := List.subset_append_of_subset_right yes.functions (ihNo hno)
      exact List.append_subset.mpr ⟨htest', List.subset_append_of_subset_right _ hno'⟩
    · obtain ⟨⟨v'', calls''⟩, hyes, heq⟩ := Option.bind_eq_some_iff.mp h
      obtain rfl : calls' ++ calls'' = calls := (Prod.mk.inj (Option.some.inj heq)).2
      have hyes' := List.subset_append_of_subset_left no.functions (ihYes hyes)
      exact List.append_subset.mpr ⟨htest', List.subset_append_of_subset_right _ hyes'⟩

/-- Lexemes without empty parentheses name no functions. -/
theorem Derives.functions_eq_nil {level : Nat} {ts : List Lexeme} {e : Expr}
    (h : Derives level ts e) (hts : ¬[.opening, .closing] <:+: ts) : e.functions = [] := by
  induction h with
  | number | name => rfl
  | call h => exact absurd (List.suffix_append _ _).isInfix hts
  | @group ts e h ih =>
    have hinside : ts <:+: .opening :: (ts ++ [.closing]) := ⟨[.opening], [.closing], rfl⟩
    exact ih fun hin => hts (hin.trans hinside)
  | @not ts e h ih => exact ih fun hin => hts (hin.trans (List.suffix_cons _ ts).isInfix)
  | @binary op ls rs left right hleft hright ihLeft ihRight =>
    have hls : ls <:+: ls ++ .op op :: rs := (List.prefix_append ls _).isInfix
    have hrs : rs <:+: ls ++ .op op :: rs :=
      ((List.suffix_cons _ rs).trans (List.suffix_append ls _)).isInfix
    rw [Expr.functions, ihLeft fun hin => hts (hin.trans hls),
      ihRight fun hin => hts (hin.trans hrs)]
    rfl
  | @cond ts ys ns test yes no htest hyes hno ihTest ihYes ihNo =>
    have htail : ys ++ .colon :: ns <:+: ts ++ .question :: (ys ++ .colon :: ns) :=
      ((List.suffix_cons _ _).trans (List.suffix_append ts _)).isInfix
    have hts' : ts <:+: ts ++ .question :: (ys ++ .colon :: ns) :=
      (List.prefix_append ts _).isInfix
    have hys : ys <:+: ys ++ .colon :: ns := (List.prefix_append ys _).isInfix
    have hns : ns <:+: ys ++ .colon :: ns :=
      ((List.suffix_cons _ ns).trans (List.suffix_append ys _)).isInfix
    rw [Expr.functions, ihTest fun hin => hts (hin.trans hts'),
      ihYes fun hin => hts (hin.trans (hys.trans htail)),
      ihNo fun hin => hts (hin.trans (hns.trans htail))]
    rfl
  | weaken h ih => exact ih hts

/-- The operator that goes on to its right operand if the left one gives an answer. -/
def BinaryOp.onward (answer : Bool) : BinaryOp :=
  if answer then .and else .or

end Source

/-! ### The counter -/

/-- The function that counts one more and gives an answer. -/
def Counter.more (answer : Bool) : Counter :=
  if answer then .moreTrue else .moreFalse

/-- The function that counts one less and gives an answer. -/
def Counter.less (answer : Bool) : Counter :=
  if answer then .lessTrue else .lessFalse

namespace Language

variable {l : Language} {c : CodeValue}

/-- What a call of a function makes of the counter, unless it drives it below zero. -/
def step? (l : Language) (n : Nat) (function : String) : Option Nat :=
  if function = l.counter .moreTrue ∨ function = l.counter .moreFalse then some (n + 1)
  else if function = l.counter .lessTrue ∨ function = l.counter .lessFalse then
    if n = 0 then none else some (n - 1)
  else some n

/-- The counter behind calls in a row, unless one of them drives it below zero. -/
def countFrom? (l : Language) (n : Nat) (calls : List String) : Option Nat :=
  calls.foldlM l.step? n

theorem countFrom?_append {m n k : Nat} {calls calls' : List String}
    (h : l.countFrom? m calls = some k) (h' : l.countFrom? k calls' = some n) :
    l.countFrom? m (calls ++ calls') = some n := by
  rw [countFrom?] at h h' ⊢
  rw [List.foldlM_append, h]
  exact h'

/-- As long as the counter is not driven below zero, it is the counter of the emitted program. -/
theorem counted_eq {calls : List String} {n : Nat} (h : l.countFrom? 0 calls = some n) :
    l.counted calls = BitVec.ofNat 32 n := by
  induction calls using List.reverseRecOn generalizing n with
  | nil =>
    obtain rfl : 0 = n := Option.some.inj h
    rfl
  | append_singleton calls function ih =>
    rw [countFrom?, List.foldlM_append, Option.bind_eq_bind, Option.bind_eq_some_iff] at h
    obtain ⟨m, hm, hstep⟩ := h
    have hcounted := ih hm
    rw [counted] at hcounted ⊢
    rw [List.foldl_append, hcounted]
    have hlast : l.step? m function = some n := by simpa using hstep
    rw [step?] at hlast
    split at hlast
    · rename_i hmore
      obtain rfl : m + 1 = n := Option.some.inj hlast
      simp [hmore, BitVec.ofNat_add]
    · rename_i hmore
      split at hlast
      · rename_i hless
        split at hlast
        · cases hlast
        · rename_i hzero
          obtain rfl : m - 1 = n := Option.some.inj hlast
          obtain ⟨k, rfl⟩ := Nat.exists_eq_succ_of_ne_zero hzero
          simp [hmore, hless, BitVec.ofNat_add]
      · rename_i hless
        obtain rfl : m = n := Option.some.inj hlast
        simp [hmore, hless]

/-- An evaluation of an expression that begins with the counter at `m` gives an answer and leaves the
counter at `n`, and nowhere is the counter driven below zero. -/
def Takes (l : Language) (c : CodeValue) (e : Expr) (m : Nat) (answer : Bool) (n : Nat) : Prop :=
  ∃ v calls, e.run (l.scope c) = some (v, calls) ∧ (v ≠ 0#32 ↔ answer = true) ∧
    l.countFrom? m calls = some n

namespace Takes

variable {e left right test yes no : Expr} {m n k : Nat} {a a' b : Bool}

theorem call_more (b : Bool) (n : Nat) : l.Takes c (.call (l.counter (.more b))) n b (n + 1) := by
  have hresult : (l.scope c).result? (l.counter (.more b)) = some (truth b) := by
    cases b with
    | true => exact Style.result?_holds l c (.inl rfl)
    | false => exact Style.result?_fails l c (.inl rfl)
  refine ⟨truth b, [l.counter (.more b)], ?_, truth_ne_zero b, ?_⟩
  · simp [Expr.run, hresult]
  · cases b <;> simp [countFrom?, step?, Counter.more]

theorem call_less (b : Bool) (n : Nat) : l.Takes c (.call (l.counter (.less b))) (n + 1) b n := by
  have hresult : (l.scope c).result? (l.counter (.less b)) = some (truth b) := by
    cases b with
    | true => exact Style.result?_holds l c (.inr rfl)
    | false => exact Style.result?_fails l c (.inr rfl)
  refine ⟨truth b, [l.counter (.less b)], ?_, truth_ne_zero b, ?_⟩
  · simp [Expr.run, hresult]
  · cases l <;> cases b <;> simp [countFrom?, step?, Counter.less, counter]

/-- The left operand decides. -/
theorem decided (hleft : l.Takes c left m a n) (hab : a ≠ b) :
    l.Takes c (.binary (.onward b) left right) m a n := by
  obtain ⟨v, calls, hrun, hv, hcount⟩ := hleft
  have hdecides : (BinaryOp.onward b).decides v = true := by
    cases b <;> simp_all [BinaryOp.onward, BinaryOp.decides]
  have htruth : truth (v != 0#32) ≠ 0#32 ↔ a = true := by
    rw [truth_ne_zero, bne_iff_ne, hv]
  exact ⟨truth (v != 0#32), calls, by simp [Expr.run, hrun, hdecides], htruth, hcount⟩

/-- The evaluation goes on to the right operand. -/
theorem goesOn (hleft : l.Takes c left m b k) (hright : l.Takes c right k a n) :
    l.Takes c (.binary (.onward b) left right) m a n := by
  obtain ⟨v, calls, hrun, hv, hcount⟩ := hleft
  obtain ⟨v', calls', hrun', hv', hcount'⟩ := hright
  have hleft : (v != 0#32) = b := bne_zero_eq hv
  have hdecides : (BinaryOp.onward b).decides v = false := by
    cases b <;> simp_all [BinaryOp.onward, BinaryOp.decides]
  have hvalue : (BinaryOp.onward b).apply v v' = truth (v' != 0#32) := by
    cases b <;> simp [BinaryOp.onward, BinaryOp.apply, hleft]
  have htruth : truth (v' != 0#32) ≠ 0#32 ↔ a = true := by
    rw [truth_ne_zero, bne_iff_ne, hv']
  exact ⟨truth (v' != 0#32), calls ++ calls', by simp [Expr.run, hrun, hrun', hdecides, hvalue],
    htruth, countFrom?_append hcount hcount'⟩

theorem cond (htest : l.Takes c test m a k) (hyes : a = true → l.Takes c yes k a' n)
    (hno : a = false → l.Takes c no k a' n) : l.Takes c (.cond test yes no) m a' n := by
  obtain ⟨v, calls, hrun, hv, hcount⟩ := htest
  cases a with
  | true =>
    obtain ⟨v', calls', hrun', hv', hcount'⟩ := hyes rfl
    have hnonzero : v ≠ 0#32 := hv.mpr rfl
    exact ⟨v', calls ++ calls', by simp [Expr.run, hrun, hnonzero, hrun'], hv',
      countFrom?_append hcount hcount'⟩
  | false =>
    obtain ⟨v', calls', hrun', hv', hcount'⟩ := hno rfl
    have hzero : v = 0#32 := by simpa using hv
    exact ⟨v', calls ++ calls', by simp [Expr.run, hrun, hzero, hrun'], hv',
      countFrom?_append hcount hcount'⟩

end Takes

end Language

/-! ### Rows of lexemes -/

namespace Style

/-- A row of lexemes is an expression of a level which gives an answer on every input of the domain
and raises the counter by a number, and never drives it below what it was. -/
def Counts (s : Style) (level : Nat) (ts : List Lexeme) (answer : CodeValue → Bool)
    (count : CodeValue → Nat) : Prop :=
  ∃ e, Derives level ts e ∧ ∀ c, s.width.contains c = true →
    ∀ n, s.language.Takes c e n (answer c) (n + count c)

variable {s : Style} {level : Nat} {ts us vs : List Lexeme}
  {answer answer' answer'' : CodeValue → Bool} {count count' count'' : CodeValue → Nat}

/-- Lexemes without empty parentheses count nothing. -/
theorem Yields.counts {f : CodeValue → CodeValue} (h : s.Yields level ts f)
    (hts : ¬[.opening, .closing] <:+: ts) (hanswer : ∀ c, f c ≠ 0#32 ↔ answer c = true) :
    s.Counts level ts answer fun _ => 0 := by
  obtain ⟨e, he, hrun⟩ := h
  refine ⟨e, he, fun c hc n => ?_⟩
  obtain ⟨calls, hcalls⟩ := hrun c hc
  have hnone : calls ⊆ [] := he.functions_eq_nil hts ▸ Expr.calls_subset hcalls
  obtain rfl : calls = [] := List.subset_nil.mp hnone
  exact ⟨f c, [], hcalls, hanswer c, rfl⟩

namespace Counts

theorem congr (h : s.Counts level ts answer count) (hanswer : ∀ c, answer c = answer' c)
    (hcount : ∀ c, count c = count' c) : s.Counts level ts answer' count' := by
  obtain rfl : answer = answer' := funext hanswer
  obtain rfl : count = count' := funext hcount
  exact h

theorem mono {level' : Nat} (h : s.Counts level' ts answer count) (hle : level ≤ level') :
    s.Counts level ts answer count := by
  obtain ⟨e, he, htakes⟩ := h
  exact ⟨e, he.mono hle, htakes⟩

theorem group (h : s.Counts 0 ts answer count) :
    s.Counts 5 (.opening :: (ts ++ [.closing])) answer count := by
  obtain ⟨e, he, htakes⟩ := h
  exact ⟨e, .group he, htakes⟩

open BinaryOp (onward)

/-- Both operands, the right one if the left one gives the answer that the operator goes on with. -/
theorem binary {b : Bool} (hleft : s.Counts (onward b).level ts answer count)
    (hright : s.Counts ((onward b).level + 1) us answer' count') :
    s.Counts (onward b).level (ts ++ .op (onward b) :: us)
      (fun c => if answer c = b then answer' c else answer c)
      (fun c => count c + if answer c = b then count' c else 0) := by
  obtain ⟨left, he, hleft⟩ := hleft
  obtain ⟨right, he', hright⟩ := hright
  refine ⟨_, .binary he he', fun c hc n => ?_⟩
  have hleft := hleft c hc n
  by_cases hgoes : answer c = b
  · have hright := hright c hc (n + count c)
    rw [hgoes] at hleft
    simpa [hgoes, Nat.add_assoc] using hleft.goesOn hright
  · simpa [hgoes] using hleft.decided hgoes

theorem cond (htest : s.Counts 1 ts answer count) (hyes : s.Counts 0 us answer' count')
    (hno : s.Counts 0 vs answer'' count'') :
    s.Counts 0 (ts ++ .question :: (us ++ .colon :: vs))
      (fun c => if answer c then answer' c else answer'' c)
      (fun c => count c + if answer c then count' c else count'' c) := by
  obtain ⟨test, he, htest⟩ := htest
  obtain ⟨yes, he', hyes⟩ := hyes
  obtain ⟨no, he'', hno⟩ := hno
  refine ⟨_, .cond he he' he'', fun c hc n => (htest c hc n).cond ?_ ?_⟩
  · intro hanswer
    simpa [hanswer, Nat.add_assoc] using hyes c hc (n + count c)
  · intro hanswer
    simpa [hanswer, Nat.add_assoc] using hno c hc (n + count c)

theorem call_more (b : Bool) :
    s.Counts 5 ((Counter.more b).call s.language) (fun _ => b) fun _ => 1 :=
  ⟨_, .call (named_counter s.language _), fun _ _ n => .call_more b n⟩

/-- An operand in parentheses is evaluated behind a function that counts one more. -/
theorem behind_more (b : Bool) (h : s.Counts 0 ts answer count) :
    s.Counts (onward b).level
      ((Counter.more b).call s.language ++ .op (onward b) :: .opening :: (ts ++ [.closing]))
      answer fun c => count c + 1 := by
  have hlevel := (onward b).level_lt
  have hwhole := ((call_more b).mono (Nat.le_of_lt hlevel)).binary (h.group.mono hlevel)
  simpa [Nat.add_comm] using hwhole

/-- A function that counts one less takes back what was counted before, if the evaluation gets
there. -/
theorem before_less {b : Bool} (h : s.Counts (onward b).level ts answer fun c => count c + 1) :
    s.Counts (onward b).level (ts ++ .op (onward b) :: (Counter.less b).call s.language) answer
      fun c => count c + if answer c = b then 0 else 1 := by
  obtain ⟨e, he, htakes⟩ := h
  have hlevel := (onward b).level_lt
  have hless : Derives ((onward b).level + 1) ((Counter.less b).call s.language) _ :=
    (Derives.call (named_counter s.language _)).mono hlevel
  refine ⟨_, .binary he hless, fun c hc n => ?_⟩
  have htakes := htakes c hc n
  by_cases hgoes : answer c = b
  · rw [hgoes] at htakes
    simpa [hgoes] using htakes.goesOn (.call_less b (n + count c))
  · simpa [hgoes] using htakes.decided hgoes

variable (hs : s.profiler = true)

include hs

theorem ja (h : s.Counts 0 ts answer count) :
    s.Counts 2 (s.operand .ja ts) answer fun c => count c + if answer c then 0 else 1 := by
  rw [operand, if_pos hs]
  exact (h.behind_more true).before_less

theorem jo (h : s.Counts 0 ts answer count) :
    s.Counts 1 (s.operand .jo ts) answer fun c => count c + if answer c = false then 0 else 1 := by
  rw [operand, if_pos hs]
  exact (h.behind_more false).before_less

theorem jr (h : s.Counts 0 ts answer count) :
    s.Counts 5 (s.operand .jr ts) answer fun c => count c + 1 := by
  rw [operand, if_pos hs]
  exact ((h.behind_more true).mono (Nat.zero_le _)).group

end Counts

variable (s)

theorem noCall_test (mask value : CodeValue) (equals : Bool) :
    ¬[.opening, .closing] <:+: lexemes (s.test mask value equals) := by
  have hmasked : lexemes (s.masked mask) = [.name "c"] ∨
      lexemes (s.masked mask) = [.name "c", .op .bitAnd, .number mask.toNat] := by
    rw [masked]
    split
    · exact .inl (by simp [Token.lexemes])
    · exact .inr (by simp [Token.lexemes])
  rw [test]
  split
  · simp [Token.lexemes, List.infix_cons_iff]
  split
  · rcases hmasked with hmasked | hmasked <;> cases equals <;>
      simp [Token.lexemes, hmasked, List.infix_cons_iff]
  · dsimp only
    rcases hmasked with hmasked | hmasked <;> split <;> cases equals <;>
      simp [Token.lexemes, hmasked, List.infix_cons_iff]

end Style

namespace Predicate

/-- The instructions that a profiled classifier counts for an input. -/
def counted (c : CodeValue) : Predicate → Nat
  | constant _ => 0
  | bitTest .. => 0
  | and left right => left.counted c + 1 + if left.eval c then right.counted c else 0
  | or left right => left.counted c + 1 + if left.eval c then 0 else right.counted c
  | cond bit on off => if hits c bit then on.counted c + 1 else off.counted c

/-- For a predicate in normal form no more instructions are counted than are executed. -/
theorem Normal.counted_le {w : Width} {n : Nat} {p : Predicate} (h : p.Normal w n)
    (c : CodeValue) : p.counted c ≤ p.pathComparisons c := by
  induction h with
  | bitTest => exact Nat.zero_le _
  | and hproper hright ih =>
    rw [counted, pathComparisons, counted, pathComparisons]
    split <;> omega
  | or hproper hright ih =>
    rw [counted, pathComparisons, counted, pathComparisons]
    split <;> omega
  | cond hlt hOn hOff ihOn ihOff =>
    rw [counted, pathComparisons]
    split <;> omega

/-- Without normal form a conjunction of constants counts what is no instruction. -/
example : (and (constant false) (constant true)).counted 0 = 1 ∧
    (and (constant false) (constant true)).pathComparisons 0 = 0 := by
  decide

end Predicate

namespace Style

variable (s : Style)

/-- The lexemes of a profiled expression, with its shorthands written out, give the answer of the
predicate and count what is known from it. -/
theorem counts_expanded (hs : s.profiler = true) {p : Predicate} (hp : p.Within s.width) :
    s.Counts 2 (s.expanded p) (fun c => p.eval c) fun c => p.counted c := by
  induction p with
  | constant answer =>
    have hyields := (s.yields_constant answer).mono (by decide : 2 ≤ 5)
    exact hyields.counts (by simp [List.infix_cons_iff]) fun _ => truth_ne_zero answer
  | bitTest mask value equals =>
    have hyields := s.yields_expanded hp
    exact hyields.counts (s.noCall_test _ _ _) fun c => Predicate.word_ne_zero c _
  | and left right ihLeft ihRight =>
    have hleft := ((ihLeft hp.1).mono (by decide)).ja hs
    have hright := ((ihRight hp.2).mono (by decide)).jr hs
    have hand := Counts.binary (b := true) hleft (hright.mono (by decide))
    refine hand.congr (fun c => ?_) fun c => ?_
    · cases hanswer : left.eval c <;> simp [Predicate.eval, hanswer]
    · cases hanswer : left.eval c <;> simp [Predicate.counted, hanswer]
      omega
  | or left right ihLeft ihRight =>
    have hleft := ((ihLeft hp.1).mono (by decide)).jo hs
    have hright := ((ihRight hp.2).mono (by decide)).jr hs
    have hor := Counts.binary (b := false) hleft (hright.mono (by decide))
    have hgroup := ((hor.mono (Nat.zero_le _)).group).mono (by decide : 2 ≤ 5)
    refine Counts.congr (by simpa [expanded, BinaryOp.onward] using hgroup) (fun c => ?_)
      fun c => ?_
    · cases hanswer : left.eval c <;> simp [Predicate.eval, hanswer]
    · cases hanswer : left.eval c <;> simp [Predicate.counted, hanswer]
      omega
  | cond bit on off ihOn ihOff =>
    have hjump : s.Counts 5 (jump bit) (fun c => !hits c bit) fun _ => 0 :=
      (s.yields_jump bit).counts (by simp [jump, List.infix_cons_iff]) fun c => by simp [hits]
    have htest := ((hjump.mono (by decide)).ja hs).mono (by decide : 1 ≤ 2)
    have hcond := htest.cond ((ihOff hp.2.2).mono (by decide)) ((ihOn hp.2.1).mono (by decide))
    have hgroup := hcond.group.mono (by decide : 2 ≤ 5)
    refine Counts.congr (by simpa [expanded] using hgroup) (fun c => ?_) fun c => ?_
    · cases hhits : hits c bit <;> simp [Predicate.eval, hhits]
    · cases hhits : hits c bit <;> simp [Predicate.counted, hhits]
      omega

end Style

end BitClassifier
