import BitClassifier.Predicate.Sketch

/-!
# Filling sketches

The three ways to join two sketches are filled alike, so that one induction (`joint_induction`)
serves for all of them. A push goes to the first open place, depth first (`exists_push`), and pushes
can be grouped (`push_push`): a fragment may be filled before it is pushed or behind that. The
algebra of pushes is `push_algebra`, and `toPredicate?_inverse` says that sketches without open
places are predicates.
-/

namespace BitClassifier.Sketch

/-- A way to join two sketches. -/
inductive Joint where
  | and
  | or
  | cond (bit : CodeValue)

/-- Two sketches as one, where the first one is filled first. -/
def join : Joint → (first second : Sketch) → Sketch
  | .and, left, right => and left right
  | .or, left, right => or left right
  | .cond bit, off, on => cond bit off on

/-- Two predicates as one, joined as the sketches that they come from. -/
def joinPredicates : Joint → (first second : Predicate) → Predicate
  | .and, left, right => .and left right
  | .or, left, right => .or left right
  | .cond bit, off, on => .cond bit on off

/-- What stands at the end of a path, where `false` leads to the side that is filled first. -/
def at? : Sketch → List Bool → Option Sketch
  | s, [] => some s
  | and left _, false :: p => left.at? p
  | and _ right, true :: p => right.at? p
  | or left _, false :: p => left.at? p
  | or _ right, true :: p => right.at? p
  | cond _ off _, false :: p => off.at? p
  | cond _ _ on, true :: p => on.at? p
  | _, _ :: _ => none

/-- Puts a fragment at the end of a path. -/
def put : Sketch → List Bool → (fragment : Sketch) → Sketch
  | _, [], fragment => fragment
  | and left right, false :: p, fragment => and (left.put p fragment) right
  | and left right, true :: p, fragment => and left (right.put p fragment)
  | or left right, false :: p, fragment => or (left.put p fragment) right
  | or left right, true :: p, fragment => or left (right.put p fragment)
  | cond bit off on, false :: p, fragment => cond bit (off.put p fragment) on
  | cond bit off on, true :: p, fragment => cond bit off (on.put p fragment)
  | s, _ :: _, _ => s

/-- Whether a path leads to an open place. -/
def IsOpen (s : Sketch) (p : List Bool) : Prop :=
  s.at? p = some hole

/-- Depth first, the place at the end of one path comes before that of another one: where the paths
part, it lies on the side that is filled first. -/
def Before (p q : List Bool) : Prop :=
  ∃ r p' q', p = r ++ false :: p' ∧ q = r ++ true :: q'

/-- Whether a path leads to the first open place. -/
structure IsFirstOpen (s : Sketch) (p : List Bool) : Prop where
  isOpen : s.IsOpen p
  before : ∀ q, s.IsOpen q → q = p ∨ Before p q

variable {s t f r first second : Sketch} {p q : List Bool}

/-! ### Joined sketches -/

/-- A property of all sketches need not be shown for every joint by itself. -/
@[elab_as_elim]
theorem joint_induction {motive : Sketch → Prop} (hole : motive hole)
    (constant : ∀ answer, motive (constant answer))
    (bitTest : ∀ mask value equals, motive (bitTest mask value equals))
    (join : ∀ joint first second, motive first → motive second → motive (join joint first second))
    (s : Sketch) : motive s := by
  induction s with
  | hole => exact hole
  | constant answer => exact constant answer
  | bitTest mask value equals => exact bitTest mask value equals
  | and left right ihLeft ihRight => exact join .and left right ihLeft ihRight
  | or left right ihLeft ihRight => exact join .or left right ihLeft ihRight
  | cond bit off on ihOff ihOn => exact join (.cond bit) off on ihOff ihOn

@[simp] theorem openPlaces_join (joint : Joint) (first second : Sketch) :
    (join joint first second).openPlaces = first.openPlaces + second.openPlaces := by
  cases joint <;> rfl

@[simp] theorem isComplete_join (joint : Joint) (first second : Sketch) :
    (join joint first second).isComplete = (first.isComplete && second.isComplete) := by
  cases joint <;> rfl

@[simp] theorem Pushed.orElse_taken (build : Sketch → Sketch → Sketch) (s second : Sketch)
    (push : Sketch → Pushed) :
    Pushed.orElse build ⟨s, none⟩ second push = ⟨build s second, none⟩ := rfl

@[simp] theorem Pushed.orElse_rejected (build : Sketch → Sketch → Sketch) (s f second : Sketch)
    (push : Sketch → Pushed) :
    Pushed.orElse build ⟨s, some f⟩ second push =
      ⟨build s (push f).sketch, (push f).rejected⟩ := rfl

theorem push_join (joint : Joint) (first second f : Sketch) :
    (join joint first second).push f =
      (first.push f).orElse (join joint) second second.push := by
  cases joint <;> rfl

@[simp] theorem put_join (joint : Joint) (first second : Sketch) (side : Bool) (p : List Bool)
    (f : Sketch) :
    (join joint first second).put (side :: p) f =
      if side then join joint first (second.put p f) else join joint (first.put p f) second := by
  cases joint <;> cases side <;> rfl

/-- The open places of joined sketches lie in their sides. -/
theorem isOpen_join (joint : Joint) :
    (join joint first second).IsOpen p ↔
      (∃ q, first.IsOpen q ∧ p = false :: q) ∨ ∃ q, second.IsOpen q ∧ p = true :: q := by
  cases p with
  | nil => cases joint <;> simp [IsOpen, join, at?]
  | cons side p => cases joint <;> cases side <;> simp [IsOpen, join, at?]

theorem Before.cons (side : Bool) (h : Before p q) : Before (side :: p) (side :: q) := by
  obtain ⟨r, p', q', rfl, rfl⟩ := h
  exact ⟨side :: r, p', q', rfl, rfl⟩

/-- The first open place of the first side is the first one of the whole. -/
theorem IsFirstOpen.join_first (joint : Joint) (second : Sketch) (h : first.IsFirstOpen p) :
    (join joint first second).IsFirstOpen (false :: p) := by
  refine ⟨(isOpen_join joint).mpr (.inl ⟨p, h.isOpen, rfl⟩), fun q hq => ?_⟩
  rcases (isOpen_join joint).mp hq with ⟨r, hr, rfl⟩ | ⟨r, hr, rfl⟩
  · rcases h.before r hr with rfl | hbefore
    · exact .inl rfl
    · exact .inr (hbefore.cons false)
  · exact .inr ⟨[], p, r, rfl, rfl⟩

/-- If nothing is open in the first side, the first open place lies in the second one. -/
theorem IsFirstOpen.join_second (joint : Joint) (h : second.IsFirstOpen p)
    (hfirst : ∀ q, ¬first.IsOpen q) : (join joint first second).IsFirstOpen (true :: p) := by
  refine ⟨(isOpen_join joint).mpr (.inr ⟨p, h.isOpen, rfl⟩), fun q hq => ?_⟩
  rcases (isOpen_join joint).mp hq with ⟨r, hr, rfl⟩ | ⟨r, hr, rfl⟩
  · exact absurd hr (hfirst r)
  · rcases h.before r hr with rfl | hbefore
    · exact .inl rfl
    · exact .inr (hbefore.cons true)

/-! ### Complete sketches -/

theorem isComplete_iff : s.isComplete = true ↔ s.openPlaces = 0 := by
  induction s using joint_induction with
  | hole => simp [isComplete, openPlaces]
  | constant answer => simp [isComplete, openPlaces]
  | bitTest mask value equals => simp [isComplete, openPlaces]
  | join joint first second ihFirst ihSecond => simp [ihFirst, ihSecond]

theorem isComplete_eq_false_iff : s.isComplete = false ↔ 0 < s.openPlaces := by
  rw [← Bool.not_eq_true, isComplete_iff, Nat.pos_iff_ne_zero]

theorem not_isOpen_of_complete (h : s.isComplete = true) (p : List Bool) : ¬s.IsOpen p := by
  induction s using joint_induction generalizing p with
  | hole => cases h
  | constant answer => cases p <;> simp [IsOpen, at?]
  | bitTest mask value equals => cases p <;> simp [IsOpen, at?]
  | join joint first second ihFirst ihSecond =>
    rw [isComplete_join, Bool.and_eq_true] at h
    intro hp
    rcases (isOpen_join joint).mp hp with ⟨q, hq, -⟩ | ⟨q, hq, -⟩
    · exact ihFirst h.1 q hq
    · exact ihSecond h.2 q hq

/-- A sketch without open places gives a fragment back, and nothing in it has changed. -/
theorem push_of_complete (h : s.isComplete = true) (f : Sketch) : s.push f = ⟨s, some f⟩ := by
  induction s using joint_induction with
  | hole => cases h
  | constant answer => rfl
  | bitTest mask value equals => rfl
  | join joint first second ihFirst ihSecond =>
    rw [isComplete_join, Bool.and_eq_true] at h
    rw [push_join, ihFirst h.1, Pushed.orElse_rejected, ihSecond h.2]

/-! ### Sketches with an open place -/

/-- The first open place takes the fragment. -/
theorem exists_push (h : s.isComplete = false) :
    ∃ p, s.IsFirstOpen p ∧ ∀ f, s.push f = ⟨s.put p f, none⟩ := by
  induction s using joint_induction with
  | hole =>
    refine ⟨[], ⟨rfl, fun q hq => ?_⟩, fun f => rfl⟩
    cases q with
    | nil => exact .inl rfl
    | cons side q => simp [IsOpen, at?] at hq
  | constant answer => cases h
  | bitTest mask value equals => cases h
  | join joint first second ihFirst ihSecond =>
    rw [isComplete_join, Bool.and_eq_false_iff] at h
    by_cases hfirst : first.isComplete = true
    · -- the first side gives the fragment back
      have hsecond : second.isComplete = false := by simpa [hfirst] using h
      obtain ⟨p, hp, hpush⟩ := ihSecond hsecond
      refine ⟨true :: p, hp.join_second joint (not_isOpen_of_complete hfirst), fun f => ?_⟩
      rw [push_join, push_of_complete hfirst, Pushed.orElse_rejected, hpush, put_join, if_pos rfl]
    · obtain ⟨p, hp, hpush⟩ := ihFirst (Bool.not_eq_true _ ▸ hfirst)
      refine ⟨false :: p, hp.join_first joint second, fun f => ?_⟩
      rw [push_join, hpush, Pushed.orElse_taken, put_join, if_neg Bool.false_ne_true]

/-- A fragment takes one open place away and brings its own. -/
theorem openPlaces_put (h : s.IsOpen p) (f : Sketch) :
    (s.put p f).openPlaces + 1 = s.openPlaces + f.openPlaces := by
  induction s using joint_induction generalizing p with
  | hole =>
    cases p with
    | nil => exact Nat.add_comm ..
    | cons side p => simp [IsOpen, at?] at h
  | constant answer => exact absurd h (not_isOpen_of_complete rfl p)
  | bitTest mask value equals => exact absurd h (not_isOpen_of_complete rfl p)
  | join joint first second ihFirst ihSecond =>
    rcases (isOpen_join joint).mp h with ⟨q, hq, rfl⟩ | ⟨q, hq, rfl⟩
    · have hput := ihFirst hq
      rw [put_join, if_neg Bool.false_ne_true, openPlaces_join, openPlaces_join]
      omega
    · have hput := ihSecond hq
      rw [put_join, if_pos rfl, openPlaces_join, openPlaces_join]
      omega

theorem openPlaces_push (h : s.isComplete = false) (f : Sketch) :
    (s.push f).sketch.openPlaces + 1 = s.openPlaces + f.openPlaces := by
  obtain ⟨p, hp, hpush⟩ := exists_push h
  rw [hpush]
  exact openPlaces_put hp.isOpen f

theorem isComplete_of_taken (h : s.push f = ⟨t, none⟩) : s.isComplete = false := by
  cases hs : s.isComplete with
  | false => rfl
  | true =>
    rw [push_of_complete hs] at h
    cases h

theorem push_eq_rejected_iff :
    s.push f = ⟨t, some r⟩ ↔ s.isComplete = true ∧ t = s ∧ r = f := by
  constructor
  · intro h
    cases hs : s.isComplete with
    | false =>
      obtain ⟨p, -, hpush⟩ := exists_push hs
      rw [hpush] at h
      cases h
    | true =>
      rw [push_of_complete hs] at h
      cases h
      exact ⟨rfl, rfl, rfl⟩
  · intro ⟨hs, ht, hr⟩
    rw [push_of_complete hs, ht, hr]

/-- Where something was open, it is open again behind a fragment with open places. -/
theorem isComplete_push (hs : s.isComplete = false) (hf : f.isComplete = false) :
    (s.push f).sketch.isComplete = false := by
  have hcount := openPlaces_push hs f
  rw [isComplete_eq_false_iff] at hs hf ⊢
  omega

theorem push_join_of_open (joint : Joint) (second : Sketch) (h : first.isComplete = false)
    (f : Sketch) :
    (join joint first second).push f = ⟨join joint (first.push f).sketch second, none⟩ := by
  obtain ⟨p, -, hpush⟩ := exists_push h
  rw [push_join, hpush, Pushed.orElse_taken]

theorem push_join_of_complete (joint : Joint) (second : Sketch) (h : first.isComplete = true)
    (f : Sketch) :
    (join joint first second).push f =
      ⟨join joint first (second.push f).sketch, (second.push f).rejected⟩ := by
  rw [push_join, push_of_complete h, Pushed.orElse_rejected]

/-- A fragment that takes another one may take it before or after it is pushed. -/
theorem push_push (hs : s.isComplete = false) (hf : f.isComplete = false) (g : Sketch) :
    (s.push f).sketch.push g = s.push (f.push g).sketch := by
  induction s using joint_induction with
  | hole =>
    obtain ⟨p, -, hpush⟩ := exists_push hf
    change f.push g = ⟨(f.push g).sketch, none⟩
    rw [hpush]
  | constant answer => cases hs
  | bitTest mask value equals => cases hs
  | join joint first second ihFirst ihSecond =>
    by_cases hfirst : first.isComplete = true
    · rw [isComplete_join, hfirst, Bool.true_and] at hs
      have ih := ihSecond hs
      rw [push_join_of_complete joint second hfirst, push_join_of_complete joint _ hfirst, ih,
        push_join_of_complete joint second hfirst]
    · have hopen : first.isComplete = false := Bool.not_eq_true _ ▸ hfirst
      rw [push_join_of_open joint second hopen,
        push_join_of_open joint second (isComplete_push hopen hf), ihFirst hopen,
        push_join_of_open joint second hopen]

/-- A push succeeds exactly if a place is open. The fragment then stands in the first open place,
depth first, and in place of that one its own places are open. A push that does not succeed gives
the fragment back and changes nothing. If a place is open in the sketch and in the fragment, it makes
no difference whether the fragment takes another one before or after it is pushed. -/
theorem push_algebra (s f g : Sketch) :
    (((s.push f).rejected = none ↔ 0 < s.openPlaces) ∧
      (0 < s.openPlaces ↔ s.isComplete = false)) ∧
    (∀ t, s.push f = ⟨t, none⟩ →
      (∃ p, s.IsFirstOpen p ∧ t = s.put p f) ∧
      t.openPlaces = s.openPlaces - 1 + f.openPlaces) ∧
    (∀ t r, s.push f = ⟨t, some r⟩ → t = s ∧ r = f) ∧
    (0 < s.openPlaces → 0 < f.openPlaces →
      ∃ t, (s.push f).sketch.push g = ⟨t, none⟩ ∧ s.push (f.push g).sketch = ⟨t, none⟩) := by
  refine ⟨⟨?_, isComplete_eq_false_iff.symm⟩, ?_, ?_, ?_⟩
  · rw [← isComplete_eq_false_iff]
    constructor
    · intro h
      exact isComplete_of_taken (congrArg (Pushed.mk _) h)
    · intro h
      obtain ⟨p, -, hpush⟩ := exists_push h
      rw [hpush]
  · intro t ht
    have hopen := isComplete_of_taken ht
    have hpos := isComplete_eq_false_iff.mp hopen
    obtain ⟨p, hp, hpush⟩ := exists_push hopen
    have hput : t = s.put p f := congrArg Pushed.sketch (ht.symm.trans (hpush f))
    have hcount := openPlaces_put hp.isOpen f
    rw [← hput] at hcount
    exact ⟨⟨p, hp, hput⟩, by omega⟩
  · intro t r h
    exact (push_eq_rejected_iff.mp h).2
  · intro hs hf
    rw [← isComplete_eq_false_iff] at hs hf
    obtain ⟨p, -, hpush⟩ := exists_push hs
    exact ⟨_, (push_push hs hf g).trans (hpush _), hpush _⟩

/-- The left side of a conjunction is taken, so that the fragment goes to the right one. -/
theorem push_algebra_right :
    ∃ t, ((and (constant true) hole).push (or hole (bitTest 0xc 0 true))).sketch.push
        (constant false) = ⟨t, none⟩ ∧
      (and (constant true) hole).push
        ((or hole (bitTest 0xc 0 true)).push (constant false)).sketch = ⟨t, none⟩ :=
  (push_algebra (and (constant true) hole) (or hole (bitTest 0xc 0 true))
    (constant false)).2.2.2 (by decide) (by decide)

/-! ### Sketches as predicates -/

@[simp] theorem ofPredicate_joinPredicates (joint : Joint) (p q : Predicate) :
    ofPredicate (joinPredicates joint p q) = join joint (ofPredicate p) (ofPredicate q) := by
  cases joint <;> rfl

theorem toPredicate?_join (joint : Joint) (first second : Sketch) :
    (join joint first second).toPredicate? =
      first.toPredicate?.bind fun p => second.toPredicate?.map (joinPredicates joint p) := by
  -- a jump takes its sides out in the other order
  cases joint <;> cases hfirst : first.toPredicate? <;> cases hsecond : second.toPredicate? <;>
    simp [join, toPredicate?, joinPredicates, hfirst, hsecond]

theorem isComplete_ofPredicate (p : Predicate) : (ofPredicate p).isComplete = true := by
  induction p with
  | constant answer => rfl
  | bitTest mask value equals => rfl
  | and left right ihLeft ihRight => rw [ofPredicate, isComplete, ihLeft, ihRight, Bool.and_self]
  | or left right ihLeft ihRight => rw [ofPredicate, isComplete, ihLeft, ihRight, Bool.and_self]
  | cond bit on off ihOn ihOff => rw [ofPredicate, isComplete, ihOn, ihOff, Bool.and_self]

theorem toPredicate?_eq_some_iff {p : Predicate} :
    s.toPredicate? = some p ↔ s = ofPredicate p := by
  constructor
  · intro h
    induction s using joint_induction generalizing p with
    | hole => cases h
    | constant answer => cases h; rfl
    | bitTest mask value equals => cases h; rfl
    | join joint first second ihFirst ihSecond =>
      simp only [toPredicate?_join, Option.bind_eq_some_iff, Option.map_eq_some_iff] at h
      obtain ⟨q, hq, r, hr, rfl⟩ := h
      rw [ofPredicate_joinPredicates, ← ihFirst hq, ← ihSecond hr]
  · intro h
    rw [h, toPredicate?_ofPredicate]

theorem exists_toPredicate? (h : s.isComplete = true) : ∃ p, s.toPredicate? = some p := by
  induction s using joint_induction with
  | hole => cases h
  | constant answer => exact ⟨.constant answer, rfl⟩
  | bitTest mask value equals => exact ⟨.bitTest mask value equals, rfl⟩
  | join joint first second ihFirst ihSecond =>
    rw [isComplete_join, Bool.and_eq_true] at h
    obtain ⟨p, hp⟩ := ihFirst h.1
    obtain ⟨q, hq⟩ := ihSecond h.2
    exact ⟨joinPredicates joint p q, by rw [toPredicate?_join, hp, hq]; rfl⟩

theorem isSome_toPredicate? (s : Sketch) : s.toPredicate?.isSome = s.isComplete := by
  cases h : s.isComplete with
  | true =>
    obtain ⟨p, hp⟩ := exists_toPredicate? h
    rw [hp, Option.isSome_some]
  | false =>
    cases hs : s.toPredicate? with
    | none => rfl
    | some p =>
      rw [toPredicate?_eq_some_iff.mp hs, isComplete_ofPredicate] at h
      cases h

/-- Sketches without open places and predicates correspond to each other one to one. A sketch is a
predicate exactly if no place is open, the predicate is that sketch again, and every predicate is a
sketch without open places that is this predicate. -/
theorem toPredicate?_inverse :
    (∀ s : Sketch, (s.toPredicate?.isSome = true ↔ s.isComplete = true) ∧
      ∀ p, s.toPredicate? = some p → ofPredicate p = s) ∧
    ∀ p : Predicate, (ofPredicate p).isComplete = true ∧ (ofPredicate p).toPredicate? = some p := by
  refine ⟨fun s => ⟨by rw [isSome_toPredicate?], fun p hp => ?_⟩, fun p => ?_⟩
  · exact (toPredicate?_eq_some_iff.mp hp).symm
  · exact ⟨isComplete_ofPredicate p, toPredicate?_ofPredicate p⟩

end BitClassifier.Sketch
