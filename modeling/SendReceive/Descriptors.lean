import SendReceive.Runtime
import SendReceive.Lib.Transition
import Mathlib.Data.Finset.Basic
import Mathlib.Data.Finset.Dedup

/-!
# File descriptors and the objects that own them

A `FileDescriptor` closes its descriptor when it is destroyed.  It cannot be copied; when it is
moved from, its number becomes `-1`, and it closes nothing.  The constructor takes any number.  It
refuses those of the standard streams and those that are not open, by an exception; then there is no
object, and nothing closes the descriptor.  It does not refuse a number that another object has, and
then both of them are going to close it.

## Main definitions

* `FileDescriptor`, `Descriptors` — the objects, and the descriptors of a process.
* `Descriptors.step`, `Descriptors.Effect` — what the members of the class do.
* `Descriptors.Unwinds` — all objects can be destroyed.
* `Descriptors.Disciplined` — no object is made for a number that another one has.
* `Descriptors.Inv` — which descriptors are open, and which object has them.

## Main results

* `Descriptors.Inv.step` — each member keeps the invariant.
* `Descriptors.unwinds_iff` — **what the discipline is for**.
* `Descriptors.eof_kept` — the end of file stays with the descriptor until it is closed.
* `Descriptors.owned` — **each descriptor is closed by the one object that has it**.
-/

namespace SendReceive

open Transition (exec)

/-- `FileDescriptor`: `fd_` and `eof_`. -/
structure FileDescriptor where
  fd : ℤ
  eof : Bool := false
  deriving DecidableEq, Repr

/-- The descriptors of a process: those that the system has open for it, and the objects of the
class `FileDescriptor` that are alive, under their names. -/
structure Descriptors where
  opened : Finset ℤ
  objects : ℕ → Option FileDescriptor
  /-- An exception left a destructor. -/
  died : Bool := false

namespace Descriptors

/-- What happens to the descriptors. -/
inductive Event where
  /-- The system opens a descriptor. -/
  | opens (fd : ℤ)
  /-- An object is made for a number. -/
  | construct (name : ℕ) (fd : ℤ)
  /-- An object is made of another one, which is moved from. -/
  | move (source name : ℕ)
  /-- `FileDescriptor::read`, when `::read` gives so many bytes of an open descriptor. -/
  | read (name : ℕ) (count : ℕ)
  /-- The end of an object's life.  `closes` says whether `::close` succeeds, if the descriptor is
  open. -/
  | destroy (name : ℕ) (closes : Bool)
  deriving DecidableEq, Repr

/-- The object under a name is made, or it changes or goes. -/
def set (s : Descriptors) (name : ℕ) (x : Option FileDescriptor) : Descriptors :=
  { s with objects := fun other => if other = name then x else s.objects other }

@[simp] theorem opened_set (s : Descriptors) (name : ℕ) (x : Option FileDescriptor) :
    (s.set name x).opened = s.opened := rfl

@[simp] theorem objects_set_self (s : Descriptors) (name : ℕ) (x : Option FileDescriptor) :
    (s.set name x).objects name = x := if_pos rfl

theorem objects_set_of_ne {s : Descriptors} {name other : ℕ} (x : Option FileDescriptor)
    (h : other ≠ name) : (s.set name x).objects other = s.objects other := if_neg h

/-- One step.  The destructor raises an exception when `::close` fails, which ends the process. -/
def step (s : Descriptors) (e : Event) : Option Descriptors :=
  if s.died then none
  else
    match e with
    | .opens fd =>
      if 0 ≤ fd ∧ fd ∉ s.opened then some { s with opened := insert fd s.opened } else none
    | .construct name fd =>
      if s.objects name = none then
        -- make sure not overwriting stdout/stderr
        if fd ≤ 2 then some s
        -- `::fcntl` fails for a descriptor that is not open
        else if fd ∉ s.opened then some s
        else some (s.set name (some { fd := fd }))
      else none
    | .move source name =>
      match s.objects source with
      | none => none
      | some x =>
        if s.objects name = none then
          some ((s.set source (some { x with fd := -1 })).set name (some x))
        else none
    | .read name count =>
      match s.objects name with
      | none => none
      | some x =>
        -- `::read` fails for a descriptor that is not open
        if x.fd ∈ s.opened ∧ count = 0 then some (s.set name (some { x with eof := true }))
        else some s
    | .destroy name closes =>
      match s.objects name with
      | none => none
      | some x =>
        if x.fd < 0 then some (s.set name none) -- has already been moved away
        else if x.fd ∈ s.opened ∧ closes then
          some ({ s with opened := s.opened.erase x.fd }.set name none)
        else some { s with died := true }

/-- What each step can do. -/
inductive Effect (s : Descriptors) : Event → Descriptors → Prop
  | opens {fd : ℤ} (hpos : 0 ≤ fd) (hfresh : fd ∉ s.opened) :
      Effect s (.opens fd) { s with opened := insert fd s.opened }
  | refuse {name : ℕ} {fd : ℤ} (hrefused : fd ≤ 2 ∨ fd ∉ s.opened) : Effect s (.construct name fd) s
  | construct {name : ℕ} {fd : ℤ} (hopen : fd ∈ s.opened) (hnone : s.objects name = none)
      (hlt : 2 < fd) : Effect s (.construct name fd) (s.set name (some { fd := fd }))
  | move {source name : ℕ} {x : FileDescriptor} (hx : s.objects source = some x)
      (hnone : s.objects name = none) : Effect s (.move source name)
        ((s.set source (some { x with fd := -1 })).set name (some x))
  | reads {name count : ℕ} : Effect s (.read name count) s
  | ends {name count : ℕ} {x : FileDescriptor} (hx : s.objects name = some x) :
      Effect s (.read name count) (s.set name (some { x with eof := true }))
  | destroyMoved {name : ℕ} {closes : Bool} {x : FileDescriptor} (hx : s.objects name = some x)
      (hneg : x.fd < 0) : Effect s (.destroy name closes) (s.set name none)
  | destroy {name : ℕ} {x : FileDescriptor} (hx : s.objects name = some x) (hpos : 0 ≤ x.fd)
      (hopen : x.fd ∈ s.opened) : Effect s (.destroy name true)
        ({ s with opened := s.opened.erase x.fd }.set name none)
  | dies {name : ℕ} {closes : Bool} {x : FileDescriptor} (hx : s.objects name = some x)
      (hpos : 0 ≤ x.fd) (hfails : x.fd ∈ s.opened → closes = false) :
      Effect s (.destroy name closes) { s with died := true }

/-- **Every step does what `Effect` says.** -/
theorem step_effect {s s' : Descriptors} {e : Event} (h : step s e = some s') : Effect s e s' := by
  obtain ⟨-, h⟩ := Option.ite_none_left_eq_some.mp h
  cases e with
  | opens fd =>
    obtain ⟨⟨hpos, hfresh⟩, h⟩ := Option.ite_none_right_eq_some.mp h
    obtain rfl := Option.some.inj h
    exact .opens hpos hfresh
  | construct name fd =>
    obtain ⟨hnone, h⟩ := Option.ite_none_right_eq_some.mp h
    split at h
    · rename_i hle
      obtain rfl := Option.some.inj h
      exact .refuse (Or.inl hle)
    · rename_i hlt
      split at h
      · rename_i hclosed
        obtain rfl := Option.some.inj h
        exact .refuse (Or.inr hclosed)
      · rename_i hopen
        obtain rfl := Option.some.inj h
        exact .construct (not_not.mp hopen) hnone (not_le.mp hlt)
  | move source name =>
    cases hx : s.objects source with
    | none =>
      simp only [hx] at h
      cases h
    | some x =>
      simp only [hx] at h
      obtain ⟨hnone, h⟩ := Option.ite_none_right_eq_some.mp h
      obtain rfl := Option.some.inj h
      exact .move hx hnone
  | read name count =>
    cases hx : s.objects name with
    | none =>
      simp only [hx] at h
      cases h
    | some x =>
      simp only [hx] at h
      split at h
      · obtain rfl := Option.some.inj h
        exact .ends hx
      · obtain rfl := Option.some.inj h
        exact .reads
  | destroy name closes =>
    cases hx : s.objects name with
    | none =>
      simp only [hx] at h
      cases h
    | some x =>
      simp only [hx] at h
      split at h
      · rename_i hneg
        obtain rfl := Option.some.inj h
        exact .destroyMoved hx hneg
      · rename_i hpos
        split at h
        · rename_i hopen
          obtain rfl := Option.some.inj h
          obtain ⟨hopen, hcloses⟩ := hopen
          obtain rfl : closes = true := hcloses
          exact .destroy hx (not_lt.mp hpos) hopen
        · rename_i hfails
          obtain rfl := Option.some.inj h
          refine .dies hx (not_lt.mp hpos) fun hopen => ?_
          exact Bool.eq_false_iff.mpr fun hcloses => hfails ⟨hopen, hcloses⟩

theorem alive_of_step {s s' : Descriptors} {e : Event} (h : step s e = some s') : ¬ s.died :=
  (Option.ite_none_left_eq_some.mp h).1

/-! ### Which object has a descriptor -/

/-- The object under a name has a descriptor. -/
def Has (s : Descriptors) (name : ℕ) (fd : ℤ) : Prop :=
  ∃ x, s.objects name = some x ∧ x.fd = fd ∧ 0 ≤ fd

/-- The descriptors that no object is made for, when they were `raw` before. -/
def Event.raw (raw : Finset ℤ) : Event → Finset ℤ
  | .opens fd => insert fd raw
  | .construct _ fd => if fd ≤ 2 then raw else raw.erase fd
  | _ => raw

/-- The event makes no object for a number that another one has. -/
def Event.Fresh (s : Descriptors) : Event → Prop
  | .construct _ fd => ∀ other, ¬ s.Has other fd
  | _ => True

/-- **Which descriptors are open, and which object has them**, when no object is made for the
descriptors `raw`. -/
structure Inv (raw : Finset ℤ) (s : Descriptors) : Prop where
  opened : ∀ fd, fd ∈ s.opened ↔ fd ∈ raw ∨ ∃ name, s.Has name fd
  own : ∀ {name fd}, s.Has name fd → 2 < fd ∧ fd ∉ raw
  unique : ∀ {name other fd}, s.Has name fd → s.Has other fd → name = other

section Has

variable {s : Descriptors} {name other : ℕ} {fd : ℤ} {x : FileDescriptor}

theorem has_set_self {y : Option FileDescriptor} :
    (s.set name y).Has name fd ↔ ∃ x, y = some x ∧ x.fd = fd ∧ 0 ≤ fd := by
  rw [Has, objects_set_self]

theorem has_set_of_ne (y : Option FileDescriptor) (h : other ≠ name) :
    (s.set name y).Has other fd ↔ s.Has other fd := by
  rw [Has, objects_set_of_ne y h, Has]

/-- An object that changes without its number changing has what it had. -/
theorem has_set_same {y : FileDescriptor} (hx : s.objects name = some x) (hfd : y.fd = x.fd) :
    (s.set name (some y)).Has other fd ↔ s.Has other fd := by
  by_cases h : other = name
  · subst h
    rw [has_set_self, Has, hx]
    simp [hfd]
  · exact has_set_of_ne _ h

/-- An object that goes leaves what the others have. -/
theorem has_set_none : (s.set name none).Has other fd ↔ other ≠ name ∧ s.Has other fd := by
  by_cases h : other = name
  · subst h
    rw [has_set_self]
    simp
  · rw [has_set_of_ne _ h]
    exact (and_iff_right h).symm

/-- **A move hands the descriptor over.** -/
theorem has_move {source : ℕ} (hx : s.objects source = some x) (hnone : s.objects name = none) :
    ((s.set source (some { x with fd := -1 })).set name (some x)).Has other fd ↔
      (other = name ∧ s.Has source fd) ∨ (other ≠ source ∧ s.Has other fd) := by
  have hne : name ≠ source := by
    rintro rfl
    rw [hx] at hnone
    cases hnone
  by_cases h : other = name
  · subst h
    have hother : ¬ s.Has other fd := by
      rintro ⟨y, hy, -⟩
      rw [hnone] at hy
      cases hy
    rw [has_set_self, Has, hx]
    simp [hother]
  · rw [has_set_of_ne _ h]
    by_cases hsource : other = source
    · subst hsource
      refine iff_of_false ?_ (by simp [h])
      rw [has_set_self]
      rintro ⟨y, hy, hfd, hpos⟩
      obtain rfl := Option.some.inj hy
      have hminus : -1 = fd := hfd
      omega
    · rw [has_set_of_ne _ hsource]
      simp [h, hsource]

/-- An object that is made has its descriptor. -/
theorem has_construct (hnone : s.objects name = none) (hpos : 0 ≤ x.fd) :
    (s.set name (some x)).Has other fd ↔ (other = name ∧ fd = x.fd) ∨ s.Has other fd := by
  by_cases h : other = name
  · subst h
    have hother : ¬ s.Has other fd := by
      rintro ⟨y, hy, -⟩
      rw [hnone] at hy
      cases hy
    rw [has_set_self]
    constructor
    · rintro ⟨y, hy, hfd, -⟩
      obtain rfl := Option.some.inj hy
      exact Or.inl ⟨rfl, hfd.symm⟩
    · rintro (⟨-, rfl⟩ | hold)
      · exact ⟨x, rfl, rfl, hpos⟩
      · exact absurd hold hother
  · rw [has_set_of_ne _ h]
    simp [h]

end Has

theorem Inv.start (initial : Finset ℤ) : Inv initial ⟨initial, fun _ => none, false⟩ := by
  have hnone : ∀ {name fd}, ¬ Has ⟨initial, fun _ => none, false⟩ name fd := by
    rintro name fd ⟨x, hx, -⟩
    cases hx
  exact ⟨fun fd => by simp [hnone], fun h => absurd h hnone, fun h => absurd h hnone⟩

section Step

variable {raw : Finset ℤ} {s s' : Descriptors} {e : Event}

/-- What an object has is open. -/
theorem Inv.mem_opened (h : Inv raw s) {name : ℕ} {fd : ℤ} (hname : s.Has name fd) :
    fd ∈ s.opened :=
  (h.opened fd).mpr (Or.inr ⟨name, hname⟩)

/-- A step that changes nothing of who has what. -/
theorem Inv.of_same (h : Inv raw s) (hopened : s'.opened = s.opened)
    (hhas : ∀ name fd, s'.Has name fd ↔ s.Has name fd) : Inv raw s' := by
  refine ⟨fun fd => ?_, ?_, ?_⟩
  · rw [hopened, h.opened]
    simp only [hhas]
  · intro name fd hname
    exact h.own ((hhas name fd).mp hname)
  · intro name other fd hname hother
    exact h.unique ((hhas name fd).mp hname) ((hhas other fd).mp hother)

/-- A descriptor that is opened. -/
theorem Inv.of_opens (h : Inv raw s) {fd : ℤ} (hfresh : fd ∉ s.opened) :
    Inv (insert fd raw) { s with opened := insert fd s.opened } := by
  refine ⟨fun fd' => ?_, ?_, fun hname hother => h.unique hname hother⟩
  · show fd' ∈ insert fd s.opened ↔ _
    rw [Finset.mem_insert, h.opened, Finset.mem_insert, or_assoc]
    rfl
  · intro name fd' hname
    have hold : s.Has name fd' := hname
    obtain ⟨hlt, hraw⟩ := h.own hold
    refine ⟨hlt, ?_⟩
    rw [Finset.mem_insert, not_or]
    refine ⟨?_, hraw⟩
    rintro rfl
    exact hfresh (h.mem_opened hold)

/-- A number that is refused belongs to no object, so that nothing changes. -/
theorem Inv.of_refuse (h : Inv raw s) {fd : ℤ} (hrefused : fd ≤ 2 ∨ fd ∉ s.opened) (name : ℕ) :
    Inv ((Event.construct name fd).raw raw) s := by
  show Inv (if fd ≤ 2 then raw else raw.erase fd) s
  split
  · exact h
  · rename_i hlt
    have hraw : fd ∉ raw := fun hmem =>
      hrefused.resolve_left hlt ((h.opened fd).mpr (Or.inl hmem))
    rwa [Finset.erase_eq_of_notMem hraw]

/-- The constructor makes the descriptor the object's. -/
theorem Inv.of_construct (h : Inv raw s) {name : ℕ} {fd : ℤ} (hopen : fd ∈ s.opened)
    (hnone : s.objects name = none) (hlt : 2 < fd) (hfree : ∀ other, ¬ s.Has other fd) :
    Inv (raw.erase fd) (s.set name (some { fd := fd })) := by
  have hraw : fd ∈ raw := ((h.opened fd).mp hopen).resolve_right fun ⟨other, hother⟩ =>
    hfree other hother
  have hhas : ∀ other fd', (s.set name (some { fd := fd })).Has other fd' ↔
      (other = name ∧ fd' = fd) ∨ s.Has other fd' :=
    fun other fd' => has_construct hnone (by show 0 ≤ fd; omega)
  refine ⟨fun fd' => ?_, ?_, ?_⟩
  · rw [opened_set, h.opened, Finset.mem_erase]
    simp only [hhas, exists_or, exists_and_right, exists_eq, true_and]
    by_cases hfd : fd' = fd
    · subst hfd
      simp [hraw]
    · simp [hfd]
  · intro other fd' hother
    rw [Finset.mem_erase, not_and]
    rcases (hhas other fd').mp hother with ⟨-, rfl⟩ | hold
    · exact ⟨hlt, fun hne => absurd rfl hne⟩
    · exact ⟨(h.own hold).1, fun _ => (h.own hold).2⟩
  · intro other other' fd' hother hother'
    rcases (hhas other fd').mp hother with ⟨rfl, rfl⟩ | hold <;>
      rcases (hhas other' fd').mp hother' with ⟨rfl, hfd⟩ | hold'
    · rfl
    · exact absurd hold' (hfree other')
    · exact absurd (hfd ▸ hold) (hfree other)
    · exact h.unique hold hold'

/-- A move changes the owner. -/
theorem Inv.of_move (h : Inv raw s) {source name : ℕ} {x : FileDescriptor}
    (hx : s.objects source = some x) (hnone : s.objects name = none) :
    Inv raw ((s.set source (some { x with fd := -1 })).set name (some x)) := by
  have hhas : ∀ other fd, Has ((s.set source (some { x with fd := -1 })).set name (some x)) other fd
      ↔ (other = name ∧ s.Has source fd) ∨ (other ≠ source ∧ s.Has other fd) :=
    fun other fd => has_move hx hnone
  refine ⟨fun fd => ?_, ?_, ?_⟩
  · rw [opened_set, opened_set, h.opened]
    refine or_congr_right ⟨?_, ?_⟩
    · rintro ⟨other, hother⟩
      by_cases hsource : other = source
      · exact ⟨name, (hhas name fd).mpr (Or.inl ⟨rfl, hsource ▸ hother⟩)⟩
      · exact ⟨other, (hhas other fd).mpr (Or.inr ⟨hsource, hother⟩)⟩
    · rintro ⟨other, hother⟩
      rcases (hhas other fd).mp hother with ⟨-, hold⟩ | ⟨-, hold⟩
      · exact ⟨source, hold⟩
      · exact ⟨other, hold⟩
  · intro other fd hother
    rcases (hhas other fd).mp hother with ⟨-, hold⟩ | ⟨-, hold⟩
    · exact h.own hold
    · exact h.own hold
  · intro other other' fd hother hother'
    rcases (hhas other fd).mp hother with ⟨rfl, hold⟩ | ⟨hne, hold⟩ <;>
      rcases (hhas other' fd).mp hother' with ⟨rfl, hold'⟩ | ⟨hne', hold'⟩
    · rfl
    · exact absurd (h.unique hold' hold) hne'
    · exact absurd (h.unique hold hold') hne
    · exact h.unique hold hold'

/-- The destructor closes the descriptor of its object, and no other one. -/
theorem Inv.of_destroy (h : Inv raw s) {name : ℕ} {x : FileDescriptor}
    (hx : s.objects name = some x) (hpos : 0 ≤ x.fd) :
    Inv raw (({ s with opened := s.opened.erase x.fd } : Descriptors).set name none) := by
  have hname : s.Has name x.fd := ⟨x, hx, rfl, hpos⟩
  obtain ⟨-, hraw⟩ := h.own hname
  have hhas : ∀ other fd, Has (({ s with opened := s.opened.erase x.fd } : Descriptors).set name
      none) other fd ↔ other ≠ name ∧ s.Has other fd := fun other fd => has_set_none
  refine ⟨fun fd => ?_, ?_, ?_⟩
  · rw [opened_set]
    show fd ∈ s.opened.erase x.fd ↔ _
    rw [Finset.mem_erase, h.opened]
    simp only [hhas]
    constructor
    · rintro ⟨hne, hold | ⟨other, hother⟩⟩
      · exact Or.inl hold
      · refine Or.inr ⟨other, ?_, hother⟩
        rintro rfl
        obtain ⟨y, hy, rfl, -⟩ := hother
        exact hne (congrArg FileDescriptor.fd (Option.some.inj (hy.symm.trans hx)))
    · rintro (hold | ⟨other, hne, hother⟩)
      · exact ⟨fun hfd => hraw (hfd ▸ hold), Or.inl hold⟩
      · exact ⟨fun hfd => hne (h.unique (hfd ▸ hother) hname), Or.inr ⟨other, hother⟩⟩
  · intro other fd hother
    exact h.own ((hhas other fd).mp hother).2
  · intro other other' fd hother hother'
    exact h.unique ((hhas other fd).mp hother).2 ((hhas other' fd).mp hother').2

/-- **Each member keeps the invariant**, and the process dies only when `::close` fails for a
descriptor that is open. -/
theorem Inv.step (h : Inv raw s) (hfresh : e.Fresh s) (heff : Effect s e s') :
    Inv (e.raw raw) s' ∧
      (s'.died → s.died ∨ ∃ name fd, e = .destroy name false ∧ s.Has name fd) := by
  cases heff with
  | opens hpos hnew => exact ⟨h.of_opens hnew, Or.inl⟩
  | @refuse name fd hrefused => exact ⟨h.of_refuse hrefused name, Or.inl⟩
  | @construct name fd hopen hnone hlt =>
    refine ⟨?_, Or.inl⟩
    show Inv (if fd ≤ 2 then raw else raw.erase fd) _
    rw [if_neg (not_le.mpr hlt)]
    exact h.of_construct hopen hnone hlt hfresh
  | move hx hnone => exact ⟨h.of_move hx hnone, Or.inl⟩
  | reads => exact ⟨h, Or.inl⟩
  | ends hx => exact ⟨h.of_same rfl fun other fd => has_set_same hx rfl, Or.inl⟩
  | destroyMoved hx hneg =>
    refine ⟨h.of_same rfl fun other fd => has_set_none.trans (and_iff_right_of_imp ?_), Or.inl⟩
    rintro ⟨y, hy, hfd, hpos⟩ rfl
    obtain rfl := Option.some.inj (hx.symm.trans hy)
    omega
  | destroy hx hpos hopen => exact ⟨h.of_destroy hx hpos, Or.inl⟩
  | @dies name closes x hx hpos hfails =>
    have hhas : s.Has name x.fd := ⟨x, hx, rfl, hpos⟩
    refine ⟨h.of_same rfl fun other fd => Iff.rfl, fun _ => Or.inr ⟨name, x.fd, ?_, hhas⟩⟩
    rw [hfails (h.mem_opened hhas)]

end Step

/-! ### Runs -/

/-- The descriptors that no object is made for after the events `es`, when they were `initial`
before. -/
def rawAfter (initial : Finset ℤ) (es : List Event) : Finset ℤ := es.foldl Event.raw initial

/-- In the run of the events `es` no object is made for a number that another one has. -/
def Disciplined (s : Descriptors) (es : List Event) : Prop :=
  ∀ before e after m, es = before ++ e :: after → exec step s before = some m → e.Fresh m

/-- The objects can be destroyed one after the other: no destructor fails when `::close` succeeds
for the descriptors that are open. -/
def Unwinds (s : Descriptors) : Prop :=
  ∀ (names : List ℕ) (s' : Descriptors),
    exec step s (names.map fun name => .destroy name true) = some s' → ¬ s'.died

/-- The last one of the events `es` is the destructor of an object that has a descriptor, and the
system does not close it. -/
def CloseFails (s : Descriptors) (es : List Event) : Prop :=
  ∃ before name fd m, es = before ++ [.destroy name false] ∧ exec step s before = some m ∧
    m.Has name fd

section Runs

variable {initial : Finset ℤ} {s s' : Descriptors} {es : List Event}

theorem Disciplined.of_append {fs : List Event} (h : s.Disciplined (es ++ fs)) :
    s.Disciplined es := by
  rintro before e after m rfl hrun
  exact h before e (after ++ fs) m (by simp) hrun

/-- What holds after every disciplined run. -/
theorem Inv.exec (hrun : Transition.exec Descriptors.step s es = some s') {raw : Finset ℤ}
    (h : Inv raw s) (halive : ¬ s.died) (hdisciplined : s.Disciplined es) :
    Inv (rawAfter raw es) s' ∧ (s'.died → s.CloseFails es) := by
  refine Transition.exec_induct
    (P := fun es s' => s.Disciplined es → Inv (rawAfter raw es) s' ∧ (s'.died → s.CloseFails es))
    (fun _ => ⟨h, fun hdied => absurd hdied halive⟩) ?_ es s' hrun hdisciplined
  intro es m e m' hexec ih hstep hdisciplined
  have hfresh : e.Fresh m := hdisciplined es e [] m rfl hexec
  obtain ⟨hinv, hdied⟩ := (ih hdisciplined.of_append).1.step hfresh (step_effect hstep)
  rw [rawAfter, List.foldl_append]
  refine ⟨hinv, fun hdied' => ?_⟩
  obtain ⟨name, fd, rfl, hhas⟩ := (hdied hdied').resolve_left (alive_of_step hstep)
  exact ⟨es, name, fd, m, rfl, hexec, hhas⟩

/-- A destructor for which `::close` fails ends the process. -/
theorem CloseFails.died (h : s.CloseFails es)
    (hrun : Transition.exec Descriptors.step s es = some s') : s'.died := by
  obtain ⟨before, name, fd, m, rfl, hbefore, x, hx, rfl, hpos⟩ := h
  obtain ⟨m', hm', hstep⟩ := Transition.exec_snoc.mp hrun
  obtain rfl := Option.some.inj (hm'.symm.trans hbefore)
  cases step_effect hstep with
  | destroyMoved hx' hneg =>
    obtain rfl := Option.some.inj (hx.symm.trans hx')
    omega
  | dies => rfl

/-- Destructors make no objects. -/
theorem disciplined_destroys (s : Descriptors) (names : List ℕ) :
    s.Disciplined (names.map fun name => .destroy name true) := by
  intro before e after m h _
  have he : e ∈ names.map fun name => Event.destroy name true := by
    rw [h]
    simp
  obtain ⟨name, -, rfl⟩ := List.mem_map.mp he
  trivial

/-- **All objects can be destroyed** where each has a descriptor of its own. -/
theorem Inv.unwinds {raw : Finset ℤ} (h : Inv raw s) (halive : ¬ s.died) : s.Unwinds := by
  intro names s' hrun hdied
  obtain ⟨before, name, fd, m, hes, -, -⟩ :=
    (Inv.exec hrun h halive (disciplined_destroys s names)).2 hdied
  have hmem : Event.destroy name false ∈ names.map fun name => Event.destroy name true := by
    rw [hes]
    simp
  obtain ⟨other, -, hother⟩ := List.mem_map.mp hmem
  cases hother

/-- The destructor of an object fails when its descriptor is not open. -/
theorem destroy_of_closed (halive : ¬ s.died) {name : ℕ} {fd : ℤ} (h : s.Has name fd)
    (hclosed : fd ∉ s.opened) : step s (.destroy name true) = some { s with died := true } := by
  obtain ⟨x, hx, rfl, hpos⟩ := h
  rw [step, if_neg halive]
  simp only [hx]
  rw [if_neg (not_lt.mpr hpos), if_neg (fun h => hclosed h.1)]

/-- It closes the descriptor when it is open. -/
theorem destroy_of_open (halive : ¬ s.died) {name : ℕ} {x : FileDescriptor}
    (hx : s.objects name = some x) (hpos : 0 ≤ x.fd) (hopen : x.fd ∈ s.opened) :
    step s (.destroy name true)
      = some (({ s with opened := s.opened.erase x.fd } : Descriptors).set name none) := by
  rw [step, if_neg halive]
  simp only [hx]
  rw [if_neg (not_lt.mpr hpos), if_pos ⟨hopen, trivial⟩]

/-- **Two objects with one descriptor cannot both be destroyed.** -/
theorem not_unwinds_of_two (halive : ¬ s.died) {name other : ℕ} {fd : ℤ} (hne : other ≠ name)
    (hname : s.Has name fd) (hother : s.Has other fd) : ¬ s.Unwinds := by
  intro h
  by_cases hopen : fd ∈ s.opened
  · obtain ⟨x, hx, rfl, hpos⟩ := hname
    have hfirst := destroy_of_open halive hx hpos hopen
    have hsecond := destroy_of_closed
      (s := ({ s with opened := s.opened.erase x.fd } : Descriptors).set name none) halive
      ((has_set_of_ne none hne).mpr hother) (Finset.notMem_erase _ _)
    have hrun := Transition.exec_append_eq_some.mpr
      ⟨_, (Transition.exec_singleton ..).trans hfirst, (Transition.exec_singleton ..).trans hsecond⟩
    exact h [name, other] _ hrun rfl
  · have hrun := (Transition.exec_singleton ..).trans (destroy_of_closed halive hname hopen)
    exact h [name] _ hrun rfl

/-- The number an object is made for. -/
def Event.made : Event → Option ℤ
  | .construct _ fd => some fd
  | _ => none

/-- What an object has after a step, an object had before, or it was made for it. -/
theorem had_of_has {e : Event} (heff : Effect s e s') {name : ℕ} {fd : ℤ} (h : s'.Has name fd) :
    (∃ other, s.Has other fd) ∨ 2 < fd ∧ e.made = some fd := by
  cases heff with
  | opens | refuse | reads | dies => exact Or.inl ⟨name, h⟩
  | @construct name' fd' hopen hnone hlt =>
    rcases (has_construct hnone (by show 0 ≤ fd'; omega)).mp h with ⟨-, rfl⟩ | hold
    · exact Or.inr ⟨hlt, rfl⟩
    · exact Or.inl ⟨name, hold⟩
  | move hx hnone =>
    rcases (has_move hx hnone).mp h with ⟨-, hold⟩ | ⟨-, hold⟩
    · exact Or.inl ⟨_, hold⟩
    · exact Or.inl ⟨name, hold⟩
  | @ends name' count x hx =>
    exact Or.inl ⟨name, (has_set_same (y := { x with eof := true }) hx rfl).mp h⟩
  | destroyMoved => exact Or.inl ⟨name, (has_set_none.mp h).2⟩
  | destroy => exact Or.inl ⟨name, (has_set_none.mp h).2⟩

/-- **Where the numbers of objects come from**: each is above those of the standard streams, and an
object was made for it. -/
theorem made_of_has (hrun : exec step ⟨initial, fun _ => none, false⟩ es = some s) {name : ℕ}
    {fd : ℤ} (h : s.Has name fd) : 2 < fd ∧ fd ∈ es.filterMap Event.made := by
  refine Transition.exec_induct
    (P := fun es s => ∀ name fd, s.Has name fd → 2 < fd ∧ fd ∈ es.filterMap Event.made) ?_ ?_ es s
    hrun name fd h
  · rintro name fd ⟨x, hx, -⟩
    cases hx
  · intro es s e s' _ ih hstep name fd h
    rw [List.filterMap_append]
    rcases had_of_has (step_effect hstep) h with ⟨other, hold⟩ | ⟨hlt, hmade⟩
    · obtain ⟨hlt, hmem⟩ := ih other fd hold
      exact ⟨hlt, List.mem_append_left _ hmem⟩
    · refine ⟨hlt, List.mem_append_right _ ?_⟩
      exact List.mem_filterMap.mpr ⟨e, List.mem_cons_self, hmade⟩

/-- It is enough that no number is used twice. -/
theorem disciplined_of_nodup (h : (es.filterMap Event.made).Nodup) :
    Disciplined ⟨initial, fun _ => none, false⟩ es := by
  rintro before e after m rfl hrun
  cases e with
  | construct name fd =>
    intro other hother
    rw [List.filterMap_append] at h
    exact (List.nodup_append.mp h).2.2 fd (made_of_has hrun hother).2 fd List.mem_cons_self rfl
  | _ => trivial

/-- **What the discipline is for**: along a run that begins with no objects, all objects can always
be destroyed if and only if none was made for a number that another one had. -/
theorem unwinds_iff (hrun : exec step ⟨initial, fun _ => none, false⟩ es = some s) :
    (∀ before after m, es = before ++ after →
      exec step ⟨initial, fun _ => none, false⟩ before = some m → ¬ m.died → m.Unwinds) ↔
        Disciplined ⟨initial, fun _ => none, false⟩ es := by
  constructor
  · rintro hunwinds before e after m rfl hbefore
    obtain ⟨m₁, hm₁, hrest⟩ := Transition.exec_append_eq_some.mp hrun
    obtain rfl := Option.some.inj (hm₁.symm.trans hbefore)
    rw [Transition.exec_cons] at hrest
    obtain ⟨m', hstep, -⟩ := Option.bind_eq_some_iff.mp hrest
    have halive := alive_of_step hstep
    cases e with
    | construct name fd =>
      intro other hother
      have hsnoc := Transition.exec_snoc.mpr ⟨m₁, hm₁, hstep⟩
      cases step_effect hstep with
      | refuse hrefused =>
        -- the number is refused since it is not open, and cannot be closed either
        have hclosed := hrefused.resolve_left (not_le.mpr (made_of_has hm₁ hother).1)
        have hdies := (Transition.exec_singleton ..).trans
          (destroy_of_closed halive hother hclosed)
        exact hunwinds before _ m₁ rfl hm₁ halive [other] _ hdies rfl
      | construct hopen hnone hlt =>
        have hne : other ≠ name := by
          rintro rfl
          obtain ⟨x, hx, -⟩ := hother
          cases hx.symm.trans hnone
        have hname : (m₁.set name (some { fd := fd })).Has name fd :=
          has_set_self.mpr ⟨_, rfl, rfl, by omega⟩
        exact not_unwinds_of_two (s := m₁.set name (some { fd := fd })) halive hne hname
          ((has_set_of_ne _ hne).mpr hother)
          (hunwinds _ after _ (List.append_cons ..) hsnoc halive)
    | _ => trivial
  · rintro hdisciplined before after m rfl hbefore halive
    exact (Inv.exec hbefore (.start initial) Bool.false_ne_true hdisciplined.of_append).1.unwinds
      halive

end Runs

/-! ### The end of file -/

/-- In the run of the events `es` from `s` the object that has a descriptor is destroyed. -/
def Closed (s : Descriptors) (es : List Event) (fd : ℤ) : Prop :=
  ∃ before name closes after m, es = before ++ .destroy name closes :: after ∧
    exec step s before = some m ∧ m.Has name fd

/-- An object has a descriptor that has had its end of file. -/
def Eof (s : Descriptors) (fd : ℤ) : Prop :=
  ∃ name x, s.objects name = some x ∧ x.fd = fd ∧ 0 ≤ fd ∧ x.eof

section Eof

variable {s s' : Descriptors} {fd : ℤ}

/-- A step that leaves the object that has the descriptor. -/
theorem Eof.of_set {name other : ℕ} {x : FileDescriptor} {y : Option FileDescriptor}
    (hx : s.objects other = some x) (hfd : x.fd = fd) (hpos : 0 ≤ fd) (heof : x.eof)
    (hne : other ≠ name) : (s.set name y).Eof fd :=
  ⟨other, x, (objects_set_of_ne y hne).trans hx, hfd, hpos, heof⟩

/-- The end of file stays with a descriptor in every step but the one that closes it. -/
theorem Eof.step (h : s.Eof fd) {e : Event} (heff : Effect s e s') :
    s'.Eof fd ∨ ∃ name closes, e = .destroy name closes ∧ s.Has name fd := by
  obtain ⟨other, y, hy, hfd, hpos, heof⟩ := h
  cases heff with
  | opens | refuse | reads | dies => exact Or.inl ⟨other, y, hy, hfd, hpos, heof⟩
  | construct hopen hnone hlt =>
    refine Or.inl (Eof.of_set hy hfd hpos heof ?_)
    rintro rfl
    cases hy.symm.trans hnone
  | @move source name x hx hnone =>
    by_cases hsource : other = source
    · -- the new object has it now
      subst hsource
      obtain rfl := Option.some.inj (hy.symm.trans hx)
      exact Or.inl ⟨name, y, objects_set_self _ _ _, hfd, hpos, heof⟩
    · have hsame := (objects_set_of_ne (some { x with fd := -1 }) hsource).trans hy
      refine Or.inl (Eof.of_set hsame hfd hpos heof ?_)
      rintro rfl
      cases hy.symm.trans hnone
  | @ends name count x hx =>
    by_cases hname : other = name
    · subst hname
      obtain rfl := Option.some.inj (hy.symm.trans hx)
      exact Or.inl ⟨other, _, objects_set_self _ _ _, hfd, hpos, rfl⟩
    · exact Or.inl (Eof.of_set hy hfd hpos heof hname)
  | @destroyMoved name closes x hx hneg =>
    refine Or.inl (Eof.of_set hy hfd hpos heof ?_)
    rintro rfl
    obtain rfl := Option.some.inj (hy.symm.trans hx)
    omega
  | @destroy name x hx hpos' hopen =>
    by_cases hname : other = name
    · exact Or.inr ⟨name, true, rfl, y, hname ▸ hy, hfd, hpos⟩
    · exact Or.inl (Eof.of_set hy hfd hpos heof hname)

/-- **The end of file stays with a descriptor until it is closed.** -/
theorem eof_kept (h : s.Eof fd) {es : List Event} (hrun : exec step s es = some s') :
    s'.Eof fd ∨ s.Closed es fd := by
  refine Transition.exec_induct (P := fun es s' => s'.Eof fd ∨ s.Closed es fd) (Or.inl h) ?_ es s'
    hrun
  intro es m e m' hexec ih hstep
  rcases ih with heof | ⟨before, name, closes, after, m₀, rfl, hbefore, hhas⟩
  · rcases heof.step (step_effect hstep) with heof' | ⟨name, closes, rfl, hhas⟩
    · exact Or.inl heof'
    · exact Or.inr ⟨es, name, closes, [], m, rfl, hexec, hhas⟩
  · exact Or.inr ⟨before, name, closes, after ++ [e], m₀, by simp, hbefore, hhas⟩

end Eof

/-- **Each descriptor is closed by the one object that has it**, as long as no object is made for a
number that another one has; and only then can all objects always be destroyed.  In every run that
begins with no objects and in which this is so, a destructor fails only where `::close` fails for a
descriptor that is open.  The descriptors that are open are those that no object was made for and
those that exactly one object has; when no object is left only the first are open.  In every run a
descriptor that has had its end of file keeps it, whatever object it is moved to, until the object
that has it is destroyed. -/
theorem owned {initial : Finset ℤ} {es : List Event} {s : Descriptors}
    (hrun : exec step ⟨initial, fun _ => none, false⟩ es = some s) :
    ((∀ before after m, es = before ++ after →
      exec step ⟨initial, fun _ => none, false⟩ before = some m → ¬ m.died → m.Unwinds) ↔
        Disciplined ⟨initial, fun _ => none, false⟩ es) ∧
    (Disciplined ⟨initial, fun _ => none, false⟩ es →
      (s.died ↔ CloseFails ⟨initial, fun _ => none, false⟩ es) ∧
      (∀ fd, fd ∈ s.opened ↔ fd ∈ rawAfter initial es ∨ ∃! name, s.Has name fd) ∧
      (∀ name fd, s.Has name fd → 2 < fd ∧ fd ∉ rawAfter initial es) ∧
      ((∀ name, s.objects name = none) → s.opened = rawAfter initial es)) ∧
    ∀ fd es' s', s.Eof fd → exec step s es' = some s' → s'.Eof fd ∨ s.Closed es' fd := by
  refine ⟨unwinds_iff hrun, fun hdisciplined => ?_, fun fd es' s' h hrun' => eof_kept h hrun'⟩
  obtain ⟨hinv, hdied⟩ := Inv.exec hrun (.start initial) Bool.false_ne_true hdisciplined
  refine ⟨⟨hdied, fun h => h.died hrun⟩, fun fd => ?_, fun _ _ => hinv.own, fun hnone => ?_⟩
  · rw [hinv.opened]
    refine or_congr_right ⟨?_, ExistsUnique.exists⟩
    rintro ⟨name, hname⟩
    exact ⟨name, hname, fun other hother => hinv.unique hother hname⟩
  · ext fd
    rw [hinv.opened]
    refine or_iff_left ?_
    rintro ⟨name, x, hx, -⟩
    cases (hnone name).symm.trans hx

/-- A socket that is moved and destroyed, and a descriptor of the standard streams that is refused:
that stays open. -/
theorem owned_of_move :
    ∃ s : Descriptors, exec step ⟨{1, 2}, fun _ => none, false⟩
        [.opens 3, .construct 0 3, .opens 0, .construct 1 0, .move 0 2, .destroy 0 true,
          .destroy 2 true] = some s ∧ ¬ s.died ∧ 0 ∈ s.opened := by
  have hexec : (exec step ⟨{1, 2}, fun _ => none, false⟩ [.opens 3, .construct 0 3, .opens 0,
      .construct 1 0, .move 0 2, .destroy 0 true, .destroy 2 true]).isSome := by
    decide
  obtain ⟨s, hrun⟩ := Option.isSome_iff_exists.mp hexec
  have hdisciplined : Disciplined ⟨{1, 2}, fun _ => none, false⟩ [.opens 3, .construct 0 3,
      .opens 0, .construct 1 0, .move 0 2, .destroy 0 true, .destroy 2 true] :=
    disciplined_of_nodup (by decide)
  obtain ⟨hdied, hopened, -⟩ := (owned hrun).2.1 hdisciplined
  refine ⟨s, hrun, fun h => ?_, (hopened 0).mpr (Or.inl (by decide))⟩
  -- the last destructor closes its descriptor
  obtain ⟨before, name, fd, m, hes, -⟩ := hdied.mp h
  have hlast := congrArg List.getLast? hes
  rw [List.getLast?_concat] at hlast
  cases hlast

/-- Two objects that are made for one number close it twice. -/
example : (exec step ⟨{5}, fun _ => none, false⟩ [.construct 0 5, .construct 1 5, .destroy 0 true,
    .destroy 1 true]).map (·.died) = some true := by
  decide

end Descriptors

end SendReceive
