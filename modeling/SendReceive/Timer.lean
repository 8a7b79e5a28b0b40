import SendReceive.Lib.TruncatedAverage
import SendReceive.RoundTrips
import Mathlib.Data.Nat.Dist

/-!
# The retransmission timer

The client keeps a smoothed round-trip time and its deviation, and computes the timeout of its
poller from them.  The computation is in doubles and is truncated each time, so that the estimates
are truncated averages of the samples.

Whether a sample is the first one is told by the smoothed time, which is zero before.  It can also
be zero later, when round trips take less than a millisecond; the sample after that is taken for a
first one.

## Main definitions

* `Estimate`, `Estimate.next` — the estimates, and what a sample makes of them.
* `Client.updated`, `Client.updateTimeouts` — the client after a sample, and after a sequence.
* `Reference` — the estimator that knows which sample is the first one.

## Main results

* `Client.smooth_eq` — **the doubles compute truncated averages**.
* `Client.reference_agrees_iff` — **when the client agrees with the reference**.
* `Client.timer_converges` — **under constant samples** the estimates settle.
-/

namespace SendReceive

open TruncatedAverage

/-! ### Estimates -/

/-- The smoothed round-trip time and its deviation. -/
@[ext]
structure Estimate where
  srtt : ℕ
  rttvar : ℕ
  deriving DecidableEq, Repr

namespace Estimate

/-- The estimates after a first sample. -/
def first (r : ℕ) : Estimate := ⟨r, r / 2⟩

/-- The estimates after a further sample. -/
def further (e : Estimate) (r : ℕ) : Estimate :=
  ⟨avg 7 e.srtt r, avg 3 e.rttvar (Nat.dist e.srtt r)⟩

/-- The estimates after a sample, which is a first one when the smoothed time is zero. -/
def next (e : Estimate) (r : ℕ) : Estimate := if e.srtt = 0 then first r else e.further r

/-- The timeout. -/
def rto (e : Estimate) : ℕ := max (e.srtt + 4 * e.rttvar) 1000

/-- Both estimates are at most `b`. -/
structure Below (e : Estimate) (b : ℕ) : Prop where
  srtt_le : e.srtt ≤ b
  rttvar_le : e.rttvar ≤ b

variable {e : Estimate} {r b : ℕ}

theorem dist_le (hs : e.srtt ≤ b) (hr : r ≤ b) : Nat.dist e.srtt r ≤ b := by
  unfold Nat.dist
  omega

theorem Below.first (hr : r ≤ b) : (first r).Below b := ⟨hr, (Nat.div_le_self r 2).trans hr⟩

theorem Below.further (h : e.Below b) (hr : r ≤ b) : (e.further r).Below b :=
  ⟨avg_le h.srtt_le hr, avg_le h.rttvar_le (dist_le h.srtt_le hr)⟩

/-- **The estimates stay below a bound of the samples.** -/
theorem Below.next (h : e.Below b) (hr : r ≤ b) : (e.next r).Below b := by
  unfold Estimate.next
  split
  · exact .first hr
  · exact h.further hr

theorem Below.rto_le (h : e.Below b) : 1000 ≤ e.rto ∧ e.rto ≤ max 1000 (5 * b) := by
  obtain ⟨hs, hv⟩ := h
  unfold rto
  omega

/-- **Taking a sample for a first one** makes no difference only when it is zero, and the
deviation is no more than one. -/
theorem next_eq_further_iff :
    e.next r = e.further r ↔ (e.srtt = 0 → r = 0 ∧ e.rttvar ≤ 1) := by
  obtain ⟨s, v⟩ := e
  unfold next
  by_cases hs : s = 0
  · simp only [hs, if_true, first, further, avg, mk.injEq, Nat.dist, true_implies]
    omega
  · simp [hs]

end Estimate

/-! ### What the client computes -/

namespace Memory.Arrival

/-- The round-trip time that the client measures. -/
def sample (a : Arrival) : UInt64 := a.now - a.packet.echoReplyTimestamp

end Memory.Arrival

namespace Client

/-- The estimates of a client. -/
def estimate (c : Client) : Estimate := ⟨c.srtt.toNat, c.rttvar.toNat⟩

theorem estimate_below (c : Client) : c.estimate.Below (2 ^ 64 - 1) :=
  ⟨Nat.le_pred_of_lt c.srtt.toNat_lt, Nat.le_pred_of_lt c.rttvar.toNat_lt⟩

/-- A weighted mean in doubles is truncated to the average. -/
theorem toUInt64_mean {n : ℕ} {w : DataType} (hw : w = 1 / (n + 1)) (x y : UInt64) :
    toUInt64 ((1 - w) * x.toNat + w * y.toNat)
      = .ok (UInt64.ofNat (avg n x.toNat y.toNat)) := by
  have hn : (n + 1 : DataType) ≠ 0 := by positivity
  have hmean : (1 - w) * x.toNat + w * y.toNat = (n * x.toNat + y.toNat) / (n + 1) := by
    rw [hw]
    field_simp
    ring
  have htrunc : truncate ((n * x.toNat + y.toNat) / (n + 1)) = (avg n x.toNat y.toNat : ℤ) := by
    rw [truncate_of_nonneg (by positivity), ← floor_eq_avg (K := DataType)]
    exact (Int.natCast_floor_eq_floor (by positivity)).symm
  have hlt : avg n x.toNat y.toNat ≤ 2 ^ 64 - 1 :=
    avg_le (Nat.le_pred_of_lt x.toNat_lt) (Nat.le_pred_of_lt y.toNat_lt)
  rw [hmean, toUInt64, htrunc, if_pos (by omega), Int.toNat_natCast]

theorem toNat_ofNat_of_le {n : ℕ} (h : n ≤ 2 ^ 64 - 1) : (UInt64.ofNat n).toNat = n := by
  have hsize : UInt64.size = 2 ^ 64 := rfl
  exact UInt64.toNat_ofNat_of_lt' (by omega)

/-- The greater of two words is that of their values. -/
theorem toNat_max (a b : UInt64) : (max a b).toNat = max a.toNat b.toNat := by
  show (if a ≤ b then b else a).toNat = _
  by_cases hle : a ≤ b
  · rw [if_pos hle, max_eq_right (UInt64.le_iff_toNat_le.mp hle)]
  · have hge : b.toNat ≤ a.toNat := (not_le.mp fun h => hle (UInt64.le_iff_toNat_le.mpr h)).le
    rw [if_neg hle, max_eq_left hge]

/-- The distance that the client computes. -/
theorem toNat_delta (s r : UInt64) :
    (if r < s then s - r else r - s).toNat = Nat.dist s.toNat r.toNat := by
  unfold Nat.dist
  by_cases hlt : r < s
  · have hlt' := UInt64.lt_iff_toNat_lt.mp hlt
    rw [if_pos hlt, UInt64.toNat_sub_of_le _ _ (UInt64.le_iff_toNat_le.mpr hlt'.le)]
    omega
  · have hle : s.toNat ≤ r.toNat := not_lt.mp fun h => hlt (UInt64.lt_iff_toNat_lt.mpr h)
    rw [if_neg hlt, UInt64.toNat_sub_of_le _ _ (UInt64.le_iff_toNat_le.mpr hle)]
    omega

/-- **The doubles compute truncated averages**, and no conversion is undefined. -/
theorem smooth_eq (c : Client) (r : UInt64) :
    c.smooth r = .ok { c with
      srtt := UInt64.ofNat (c.estimate.next r.toNat).srtt
      rttvar := UInt64.ofNat (c.estimate.next r.toNat).rttvar } := by
  have hzero : c.srtt = 0 ↔ c.estimate.srtt = 0 := UInt64.toNat_inj.symm
  unfold smooth Estimate.next
  by_cases hs : c.srtt = 0
  · rw [if_pos hs, if_pos (hzero.mp hs)]
    have hhalf : UInt64.ofNat (r.toNat / 2) = r / 2 := by
      have hlt := r.toNat_lt
      rw [← UInt64.toNat_inj, UInt64.toNat_div, toNat_ofNat_of_le (by omega)]
      rfl
    simp only [Estimate.first, UInt64.ofNat_toNat, hhalf]
  · rw [if_neg hs, if_neg fun h => hs (hzero.mpr h)]
    have hbeta : beta = 1 / ((3 : ℕ) + 1) := by norm_num [beta]
    have halpha : alpha = 1 / ((7 : ℕ) + 1) := by norm_num [alpha]
    dsimp only
    rw [toUInt64_mean hbeta, ok_bind, toUInt64_mean halpha, ok_bind, toNat_delta]
    rfl

/-- The client after a sample `r`. -/
def updated (c : Client) (r : UInt64) : Client :=
  let e := c.estimate.next r.toNat
  { c with
    srtt := UInt64.ofNat e.srtt
    rttvar := UInt64.ofNat e.rttvar
    rto := max (UInt64.ofNat e.srtt + K * UInt64.ofNat e.rttvar) 1000 }

/-- **What `update_timeout` does**, for every packet and reading of the clock. -/
theorem updateTimeout_eq (c : Client) (p : Packet) (now : UInt64) (clock : Clock) :
    c.updateTimeout p (now :: clock) = .ok (c.updated (now - p.echoReplyTimestamp), clock) := by
  rw [updateTimeout, timestamp_cons, ok_bind]
  dsimp only
  rw [smooth_eq, ok_bind]
  rfl

theorem estimate_updated (c : Client) (r : UInt64) :
    (c.updated r).estimate = c.estimate.next r.toNat := by
  obtain ⟨hs, hv⟩ := c.estimate_below.next (Nat.le_pred_of_lt r.toNat_lt)
  ext
  · exact toNat_ofNat_of_le hs
  · exact toNat_ofNat_of_le hv

/-- The timeout is not wrapped around as long as the estimates are small. -/
theorem rto_updated {c : Client} {r : UInt64} {b : ℕ} (h : c.estimate.Below b) (hr : r.toNat ≤ b)
    (hb : 5 * b < 2 ^ 64) : (c.updated r).rto.toNat = (c.estimate.next r.toNat).rto := by
  obtain ⟨hs, hv⟩ := h.next hr
  have hK : K.toNat = 4 := rfl
  show (max (UInt64.ofNat _ + K * UInt64.ofNat _) 1000).toNat = max _ 1000
  rw [toNat_max, UInt64.toNat_add, UInt64.toNat_mul, hK, toNat_ofNat_of_le (by omega),
    toNat_ofNat_of_le (by omega)]
  have hsum : ((c.estimate.next r.toNat).srtt
      + 4 * (c.estimate.next r.toNat).rttvar % 2 ^ 64) % 2 ^ 64
      = (c.estimate.next r.toNat).srtt + 4 * (c.estimate.next r.toNat).rttvar := by
    omega
  rw [hsum]
  rfl

/-- `Client::update_timeout` for acknowledgements that arrive one after the other. -/
def updateTimeouts (c : Client) (as : List Memory.Arrival) : Except Stop Client :=
  as.foldlM (fun c a => (c.updateTimeout a.packet [a.now]).map Prod.fst) c

/-- The client after the samples of a sequence. -/
def updatedAll (c : Client) (as : List Memory.Arrival) : Client :=
  as.foldl (fun c a => c.updated a.sample) c

theorem updatedAll_concat (c : Client) (as : List Memory.Arrival) (a : Memory.Arrival) :
    c.updatedAll (as ++ [a]) = (c.updatedAll as).updated a.sample := by
  rw [updatedAll, List.foldl_concat]
  rfl

/-- **No update ends early.** -/
theorem updateTimeouts_eq (as : List Memory.Arrival) : ∀ c : Client,
    c.updateTimeouts as = .ok (c.updatedAll as) := by
  induction as with
  | nil => intro c; rfl
  | cons a as ih =>
    intro c
    rw [updateTimeouts, List.foldlM_cons, updateTimeout_eq]
    exact ih (c.updated a.sample)

/-- The estimates and the timeout. -/
def timer (c : Client) : ℕ × ℕ × ℕ := (c.srtt.toNat, c.rttvar.toNat, c.rto.toNat)

end Client

/-! ### The reference -/

namespace Reference

/-- The reference estimator after a sample.  It has no estimates before the first one. -/
def next : Option Estimate → ℕ → Option Estimate
  | none, r => some ⟨r, ⌊(r : ℚ) / 2⌋₊⟩
  | some e, r => some {
    rttvar := ⌊(3 / 4 : ℚ) * e.rttvar + 1 / 4 * |(e.srtt : ℚ) - r|⌋₊
    srtt := ⌊(7 / 8 : ℚ) * e.srtt + 1 / 8 * r⌋₊ }

/-- What the reference has after a sequence of samples. -/
def after (rs : List ℕ) : Option Estimate := rs.foldl next none

/-- Its estimates and its timeout. -/
def timer : Option Estimate → ℕ × ℕ × ℕ
  | none => (0, 0, 1000)
  | some e => (e.srtt, e.rttvar, max (e.srtt + 4 * e.rttvar) 1000)

theorem abs_sub_eq_dist (s r : ℕ) : |(s : ℚ) - r| = (Nat.dist s r : ℕ) := by
  rcases le_total s r with hle | hle
  · rw [Nat.dist_eq_sub_of_le hle, abs_of_nonpos (by simpa using hle), Nat.cast_sub hle]
    ring
  · rw [Nat.dist_eq_sub_of_le_right hle, abs_of_nonneg (by simpa using hle), Nat.cast_sub hle]

theorem next_none (r : ℕ) : next none r = some (.first r) := by
  have hhalf : ⌊(r : ℚ) / 2⌋₊ = r / 2 := Nat.floor_div_eq_div (K := ℚ) r 2
  rw [next, hhalf]
  rfl

/-- **The reference computes truncated averages** as well. -/
theorem next_some (e : Estimate) (r : ℕ) : next (some e) r = some (e.further r) := by
  have hvar : (3 / 4 : ℚ) * e.rttvar + 1 / 4 * (Nat.dist e.srtt r : ℕ)
      = ((3 : ℕ) * e.rttvar + (Nat.dist e.srtt r : ℕ)) / ((3 : ℕ) + 1) := by
    push_cast
    ring
  have hsrtt : (7 / 8 : ℚ) * e.srtt + 1 / 8 * r = ((7 : ℕ) * e.srtt + r) / ((7 : ℕ) + 1) := by
    push_cast
    ring
  rw [next, abs_sub_eq_dist, hvar, hsrtt, floor_eq_avg, floor_eq_avg]
  rfl

theorem after_concat (rs : List ℕ) (r : ℕ) : after (rs ++ [r]) = next (after rs) r := by
  rw [after, List.foldl_concat]
  rfl

/-- The rule for what holds of the estimates of the reference. -/
theorem forall_after {I : Estimate → Prop} {S : ℕ → Prop} (hfirst : ∀ r, S r → I (.first r))
    (hfurther : ∀ e r, I e → S r → I (e.further r)) {rs : List ℕ} (h : ∀ r ∈ rs, S r) :
    ∀ e ∈ after rs, I e := by
  induction rs using List.reverseRecOn with
  | nil => intro e he; cases he
  | append_singleton rs r ih =>
    have hr : S r := h r (by simp)
    intro e he
    rw [after_concat] at he
    cases hbefore : after rs with
    | none =>
      rw [hbefore, next_none, Option.mem_some_iff] at he
      exact he ▸ hfirst r hr
    | some e' =>
      rw [hbefore, next_some, Option.mem_some_iff] at he
      have he' : I e' := ih (fun x hx => h x (List.mem_append_left _ hx)) e' hbefore
      exact he ▸ hfurther e' r he' hr

/-- The estimates of the reference stay below a bound of the samples. -/
theorem below_after {rs : List ℕ} {b : ℕ} (h : ∀ r ∈ rs, r ≤ b) :
    ∀ e ∈ after rs, e.Below b :=
  forall_after (fun _ hr => .first hr) (fun _ _ he hr => he.further hr) h

/-- The smoothed time is never zero when no sample is. -/
theorem srtt_pos_after {rs : List ℕ} (h : ∀ r ∈ rs, 1 ≤ r) : ∀ e ∈ after rs, 1 ≤ e.srtt :=
  forall_after (fun _ hr => hr) (fun _ _ he hr => le_avg he hr) h

theorem timer_some_inj {e e' : Estimate} : timer (some e) = timer (some e') ↔ e = e' := by
  constructor
  · intro h
    simp only [timer, Prod.mk.injEq] at h
    ext
    · exact h.1
    · exact h.2.1
  · rintro rfl
    rfl

end Reference

/-! ### Parts of a sequence -/

/-- A part of a longer sequence is a part of the shorter one, or the whole. -/
theorem forall_prefix_concat {α : Type} {P : List α → Prop} {as : List α} {a : α} :
    (∀ before, before <+: as ++ [a] → P before) ↔
      (∀ before, before <+: as → P before) ∧ P (as ++ [a]) := by
  simp only [List.prefix_concat_iff]
  constructor
  · intro h
    exact ⟨fun before hbefore => h before (Or.inr hbefore), h _ (Or.inl rfl)⟩
  · rintro ⟨hparts, hwhole⟩ before (rfl | hbefore)
    · exact hwhole
    · exact hparts before hbefore

/-- A member of a longer sequence is one of the shorter, or the last. -/
theorem forall_member_concat {α : Type} {Q : List α → α → Prop} {as : List α} {a : α} :
    (∀ before x, before ++ [x] <+: as ++ [a] → Q before x) ↔
      (∀ before x, before ++ [x] <+: as → Q before x) ∧ Q as a := by
  simp only [List.prefix_concat_iff]
  constructor
  · intro h
    exact ⟨fun before x hbefore => h before x (Or.inr hbefore), h _ _ (Or.inl rfl)⟩
  · rintro ⟨hparts, hlast⟩ before x (heq | hbefore)
    · obtain ⟨rfl, rfl⟩ := List.append_singleton_inj.mp heq
      exact hlast
    · exact hparts before x hbefore

/-! ### Agreement with the reference -/

namespace Client

/-- The samples of a sequence of acknowledgements. -/
def samples (as : List Memory.Arrival) : List ℕ := as.map fun a => a.sample.toNat

/-- The client computes what the reference does, after each part of a sequence. -/
def AgreesAlong (c : Client) (as : List Memory.Arrival) : Prop :=
  ∀ before, before <+: as → ∃ c', c.updateTimeouts before = .ok c' ∧
    c'.timer = Reference.timer (Reference.after (samples before))

variable {c : Client} {b : ℕ}

/-- The client after a sample has the estimates and the timeout of a reference that takes it for a
first one when the smoothed time is zero. -/
theorem timer_updated {r : UInt64} (h : c.estimate.Below b) (hr : r.toNat ≤ b)
    (hb : 5 * b < 2 ^ 64) :
    (c.updated r).timer = Reference.timer (some (c.estimate.next r.toNat)) := by
  have hestimate := c.estimate_updated r
  have hsrtt : (c.updated r).srtt.toNat = _ := congrArg Estimate.srtt hestimate
  have hrttvar : (c.updated r).rttvar.toNat = _ := congrArg Estimate.rttvar hestimate
  rw [timer, hsrtt, hrttvar, rto_updated h hr hb]
  rfl

/-- **One more sample**: the client that agreed before agrees after it when it is not taken for a
first one, or when this makes no difference. -/
theorem timer_updated_iff {ref : Option Estimate} {r : UInt64} (h : c.timer = Reference.timer ref)
    (hbelow : ∀ e ∈ ref, e.Below b) (hr : r.toNat ≤ b) (hb : 5 * b < 2 ^ 64) :
    (c.updated r).timer = Reference.timer (Reference.next ref r.toNat) ↔
      ∀ e ∈ ref, e.srtt = 0 → r = 0 ∧ e.rttvar ≤ 1 := by
  cases ref with
  | none =>
    simp only [timer, Reference.timer, Prod.mk.injEq] at h
    have hzero : c.estimate = ⟨0, 0⟩ := Estimate.ext h.1 h.2.1
    have hb' : c.estimate.Below b := by
      rw [hzero]
      exact ⟨Nat.zero_le _, Nat.zero_le _⟩
    rw [timer_updated hb' hr hb, hzero, Reference.next_none]
    exact iff_of_true rfl (by simp)
  | some e =>
    simp only [timer, Reference.timer, Prod.mk.injEq] at h
    have he : c.estimate = e := Estimate.ext h.1 h.2.1
    have hzero : r = 0 ↔ r.toNat = 0 := UInt64.toNat_inj.symm
    rw [timer_updated (he ▸ hbelow e rfl) hr hb, he, Reference.next_some, Reference.timer_some_inj,
      Estimate.next_eq_further_iff, hzero]
    simp

/-- **When the client agrees with the reference**: along every sequence of samples in which a zero
smoothed time, once there was a sample, is only ever followed by a sample that is zero as well, with
a deviation of no more than one. -/
theorem reference_agrees_iff {c : Client} (hsrtt : c.srtt = 0) (hrttvar : c.rttvar = 0)
    (hrto : c.rto = 1000) {as : List Memory.Arrival} (has : ∀ a ∈ as, a.sample.toNat < 2 ^ 50) :
    c.AgreesAlong as ↔ ∀ before a, before ++ [a] <+: as →
      ∀ e ∈ Reference.after (samples before), e.srtt = 0 → a.sample = 0 ∧ e.rttvar ≤ 1 := by
  unfold AgreesAlong
  simp only [updateTimeouts_eq, Except.ok.injEq, exists_eq_left']
  induction as using List.reverseRecOn with
  | nil =>
    refine iff_of_true (fun before hbefore => ?_) fun before a h => ?_
    · rw [List.prefix_nil.mp hbefore]
      show c.timer = _
      rw [timer, hsrtt, hrttvar, hrto]
      rfl
    · simp at h
  | append_singleton as a ih =>
    have hbefore : ∀ x ∈ as, x.sample.toNat < 2 ^ 50 := fun x hx =>
      has x (List.mem_append_left _ hx)
    have hlast : a.sample.toNat < 2 ^ 50 := has a (by simp)
    have hbelow : ∀ e ∈ Reference.after (samples as), e.Below (2 ^ 50) := by
      refine Reference.below_after fun r hr => ?_
      obtain ⟨x, hx, rfl⟩ := List.mem_map.mp hr
      exact (hbefore x hx).le
    rw [forall_prefix_concat, forall_member_concat, ih hbefore]
    refine and_congr_right fun hparts => ?_
    have hmatch := (ih hbefore).mpr hparts as List.prefix_rfl
    have hsamples : samples (as ++ [a]) = samples as ++ [a.sample.toNat] := List.map_append
    rw [updatedAll_concat, hsamples, Reference.after_concat]
    exact timer_updated_iff hmatch hbelow hlast.le (by norm_num)

/-- A client with a first measurement of two milliseconds and a second one of three. -/
theorem reference_agrees_iff_of_two :
    (make ⟨0, 0⟩ ⟨⟨0, 0⟩⟩ .init false).AgreesAlong [.of 1 5 7, .of 1 6 9] := by
  refine (reference_agrees_iff rfl rfl rfl (by decide)).mpr fun before a hbefore e he hzero => ?_
  have hall : ∀ r ∈ samples [.of 1 5 7, .of 1 6 9], 1 ≤ r := by decide
  have hpos : ∀ r ∈ samples before, 1 ≤ r := by
    intro r hr
    obtain ⟨x, hx, rfl⟩ := List.mem_map.mp hr
    exact hall _ (List.mem_map_of_mem (hbefore.subset (List.mem_append_left [a] hx)))
  have hsrtt := Reference.srtt_pos_after hpos e he
  omega

/-- A first measurement of less than a millisecond and one of a second: the client takes the second
one for the first. -/
theorem measurement_taken_for_first :
    ¬ (make ⟨0, 0⟩ ⟨⟨0, 0⟩⟩ .init false).AgreesAlong [.of 1 5 5, .of 1 5 1005] := by
  intro h
  obtain ⟨c', hc', htimer⟩ := h _ List.prefix_rfl
  rw [updateTimeouts_eq] at hc'
  obtain rfl := Except.ok.inj hc'
  revert htimer
  decide +kernel

end Client

/-! ### Constant samples -/

namespace Estimate

variable {e : Estimate} {r : ℕ}

/-- **The smoothed time does not overshoot.** -/
theorem srtt_next_le (h : e.srtt ≤ r) : (e.next r).srtt ≤ r := by
  unfold next
  split
  · exact le_rfl
  · exact avg_le h le_rfl

theorem le_srtt_next (h : r ≤ e.srtt) : r ≤ (e.next r).srtt := by
  unfold next
  split
  · exact le_rfl
  · exact le_avg h le_rfl

/-- The smoothed time is where it stays under samples `r`. -/
structure Settled (r : ℕ) (e : Estimate) : Prop where
  le : e.srtt ≤ r
  near : r ≤ e.srtt + 7
  started : e.srtt = 0 → r = 0

theorem Settled.srtt_next (h : e.Settled r) : (e.next r).srtt = e.srtt := by
  unfold next
  by_cases hs : e.srtt = 0
  · rw [if_pos hs, hs]
    exact h.started hs
  · rw [if_neg hs]
    exact avg_eq_left h.le h.near

theorem Settled.next (h : e.Settled r) : (e.next r).Settled r := by
  obtain ⟨hle, hnear, hstarted⟩ := h
  have hsrtt := Settled.srtt_next ⟨hle, hnear, hstarted⟩
  exact ⟨hsrtt ▸ hle, hsrtt ▸ hnear, hsrtt ▸ hstarted⟩

/-- **A smoothed time that has not settled comes closer to the sample.** -/
theorem settled_or_closer (r : ℕ) (e : Estimate) :
    e.Settled r ∨ Nat.dist (e.next r).srtt r < Nat.dist e.srtt r := by
  unfold Estimate.next Nat.dist
  by_cases hs : e.srtt = 0
  · rw [if_pos hs]
    by_cases hr : r = 0
    · exact Or.inl ⟨by omega, by omega, fun _ => hr⟩
    · right
      show r - r + (r - r) < _
      omega
  · rw [if_neg hs]
    show _ ∨ avg 7 e.srtt r - r + (r - avg 7 e.srtt r) < _
    rcases lt_or_ge r e.srtt with habove | hbelow
    · have hlt : avg 7 e.srtt r < e.srtt := avg_lt_left habove
      have hge : r ≤ avg 7 e.srtt r := le_avg habove.le le_rfl
      right
      omega
    · rcases lt_or_ge (e.srtt + 7) r with hfar | hnear
      · have hlt : e.srtt < avg 7 e.srtt r := left_lt_avg hfar
        have hle : avg 7 e.srtt r ≤ r := avg_le hbelow le_rfl
        right
        omega
      · exact Or.inl ⟨hbelow, hnear, fun h => absurd h hs⟩

/-- The deviation has come down to the distance that is left. -/
structure Calm (r : ℕ) (e : Estimate) : Prop extends Settled r e where
  rttvar_le : e.rttvar ≤ r - e.srtt

theorem Calm.next (h : e.Calm r) : (e.next r).Calm r := by
  refine ⟨h.toSettled.next, ?_⟩
  rw [h.toSettled.srtt_next]
  have hle := h.le
  have hvar := h.rttvar_le
  unfold Estimate.next
  split
  · show r / 2 ≤ _
    have hr := h.started ‹_›
    omega
  · exact avg_le hvar (by unfold Nat.dist; omega)

/-- **A deviation above that distance falls.** -/
theorem calm_or_falls (h : e.Settled r) :
    e.Calm r ∨ (e.next r).Settled r ∧ (e.next r).rttvar < e.rttvar := by
  rcases Nat.lt_or_ge (r - e.srtt) e.rttvar with hlarge | hsmall
  · refine Or.inr ⟨h.next, ?_⟩
    have hle := h.le
    unfold Estimate.next
    split
    · show r / 2 < _
      have hr := h.started ‹_›
      omega
    · exact avg_lt_left (by unfold Nat.dist; omega)
  · exact Or.inl ⟨h, hsmall⟩

/-- Under constant samples the estimates come to rest. -/
theorem exists_calm (r : ℕ) (e : Estimate) : ∃ k, ((·.next r)^[k] e).Calm r := by
  obtain ⟨k, hk⟩ := exists_iterate (f := (·.next r)) (P := Settled r) (Q := fun _ => True)
    (fun e => Nat.dist e.srtt r) (fun e _ => (settled_or_closer r e).imp_right (⟨trivial, ·⟩)) e
    trivial
  obtain ⟨j, hj⟩ := exists_iterate (f := (·.next r)) (P := Calm r) (Q := Settled r)
    Estimate.rttvar (fun _ => calm_or_falls) _ hk
  exact ⟨j + k, by rwa [Function.iterate_add_apply]⟩

theorem Calm.rto_le (h : e.Calm r) : e.rto ≤ max 1000 (r + 21) := by
  obtain ⟨⟨hle, hnear, -⟩, hvar⟩ := h
  unfold rto
  omega

end Estimate

namespace Client

variable {r : UInt64}

/-- The estimates after samples that are all the same. -/
theorem estimate_updatedAll_of_const {as : List Memory.Arrival} : ∀ {c : Client},
    (∀ a ∈ as, a.sample = r) →
      (c.updatedAll as).estimate = (·.next r.toNat)^[as.length] c.estimate := by
  induction as with
  | nil => intro c _; rfl
  | cons a as ih =>
    intro c h
    obtain ⟨ha, has⟩ := List.forall_mem_cons.mp h
    show ((c.updated a.sample).updatedAll as).estimate = _
    rw [ih has, estimate_updated, ha]
    rfl

/-- The estimates after a sequence of small samples. -/
theorem below_updatedAll {c : Client} {b : ℕ} (h : c.estimate.Below b) {as : List Memory.Arrival}
    (has : ∀ a ∈ as, a.sample.toNat ≤ b) : (c.updatedAll as).estimate.Below b := by
  induction as using List.reverseRecOn with
  | nil => exact h
  | append_singleton as a ih =>
    rw [updatedAll_concat, estimate_updated]
    exact (ih fun x hx => has x (List.mem_append_left _ hx)).next (has a (by simp))

/-- The timeout after such a sequence. -/
theorem rto_updatedAll {c : Client} {b : ℕ} (h : c.estimate.Below b) (hb : 5 * b < 2 ^ 64)
    {as : List Memory.Arrival} (hne : as ≠ []) (has : ∀ a ∈ as, a.sample.toNat ≤ b) :
    (c.updatedAll as).rto.toNat = (c.updatedAll as).estimate.rto := by
  obtain ⟨before, a, rfl⟩ := (List.eq_nil_or_concat' as).resolve_left hne
  have hbefore := below_updatedAll h fun x hx => has x (List.mem_append_left [a] hx)
  rw [updatedAll_concat, rto_updated hbefore (has a (by simp)) hb, estimate_updated]

/-- **Under constant samples** the timer converges: from some point on the smoothed time is at most
seven below the sample and the timeout at most twenty-one above it, and on the way the smoothed
time does not overshoot. -/
theorem timer_converges {c : Client} (hsrtt : c.srtt.toNat < 2 ^ 50)
    (hrttvar : c.rttvar.toNat < 2 ^ 50) (hr : r.toNat < 2 ^ 50) :
    (∃ N, ∀ as : List Memory.Arrival, N ≤ as.length → (∀ a ∈ as, a.sample = r) →
      ∃ c', c.updateTimeouts as = .ok c' ∧
        r.toNat - 7 ≤ c'.srtt.toNat ∧ c'.srtt.toNat ≤ r.toNat ∧
        1000 ≤ c'.rto.toNat ∧ c'.rto.toNat ≤ max 1000 (r.toNat + 21)) ∧
    ∀ as : List Memory.Arrival, (∀ a ∈ as, a.sample = r) →
      ∃ c', c.updateTimeouts as = .ok c' ∧
        (c.srtt ≤ r → c'.srtt ≤ r) ∧ (r ≤ c.srtt → r ≤ c'.srtt) := by
  have hbelow : c.estimate.Below (2 ^ 50) := ⟨hsrtt.le, hrttvar.le⟩
  constructor
  · obtain ⟨k, hk⟩ := Estimate.exists_calm r.toNat c.estimate
    refine ⟨k + 1, fun as hlen has => ⟨_, updateTimeouts_eq as c, ?_⟩⟩
    have hsmall : ∀ a ∈ as, a.sample.toNat ≤ 2 ^ 50 := fun a ha => has a ha ▸ hr.le
    have hne : as ≠ [] := by
      rintro rfl
      simp at hlen
    -- what has come to rest stays there
    have hcalm : (c.updatedAll as).estimate.Calm r.toNat := by
      obtain ⟨j, hj⟩ := Nat.exists_eq_add_of_le (Nat.le_of_succ_le hlen)
      rw [estimate_updatedAll_of_const has, hj, Nat.add_comm, Function.iterate_add_apply]
      exact Function.Iterate.rec (Estimate.Calm r.toNat) hk (fun _ h => h.next) j
    have hrto := rto_updatedAll hbelow (by norm_num) hne hsmall
    have hlow := (below_updatedAll hbelow hsmall).rto_le.1
    refine ⟨Nat.sub_le_of_le_add hcalm.near, hcalm.le, ?_, ?_⟩
    · rw [hrto]
      exact hlow
    · rw [hrto]
      exact hcalm.rto_le
  · intro as has
    refine ⟨_, updateTimeouts_eq as c, fun hle => ?_, fun hge => ?_⟩
    · rw [UInt64.le_iff_toNat_le] at hle ⊢
      show (c.updatedAll as).estimate.srtt ≤ _
      rw [estimate_updatedAll_of_const has]
      exact Function.Iterate.rec (fun e : Estimate => e.srtt ≤ r.toNat)
        hle (fun _ => Estimate.srtt_next_le) as.length
    · rw [UInt64.le_iff_toNat_le] at hge ⊢
      show _ ≤ (c.updatedAll as).estimate.srtt
      rw [estimate_updatedAll_of_const has]
      exact Function.Iterate.rec (fun e : Estimate => r.toNat ≤ e.srtt)
        hge (fun _ => Estimate.le_srtt_next) as.length

/-- A client without measurements under samples of fifty milliseconds. -/
theorem timer_converges_of_fifty : ∃ N, ∀ as : List Memory.Arrival, N ≤ as.length →
    (∀ a ∈ as, a.sample = 50) → ∃ c', (make ⟨0, 0⟩ ⟨⟨0, 0⟩⟩ .init false).updateTimeouts as = .ok c' ∧
      43 ≤ c'.srtt.toNat ∧ c'.srtt.toNat ≤ 50 ∧ 1000 ≤ c'.rto.toNat ∧ c'.rto.toNat ≤ 1000 :=
  (timer_converges (c := make ⟨0, 0⟩ ⟨⟨0, 0⟩⟩ .init false) (r := 50) (by decide) (by decide)
    (by decide)).1

end Client

end SendReceive
