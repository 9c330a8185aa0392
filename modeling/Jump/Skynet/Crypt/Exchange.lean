import Jump.Skynet.Crypt.Des
import Mathlib.Algebra.Ring.Nat
import Mathlib.Data.Nat.ModEq
import Mathlib.Tactic.Ring

/-! # The key exchange of `lua-crypt.c`

Powers modulo the largest prime below 2^64. Products are taken by doubling and adding, with every
sum kept below the modulus, so that nothing is lost in 64 bits.
-/

namespace Jump.Skynet.Crypt

open Jump.Core

def P : UInt64 := 0xffffffffffffffc5

def G : UInt64 := 5

/-- The loop of `mul_mod_p`. -/
def mulLoop (m a b : UInt64) : UInt64 :=
  if b = 0 then m
  else
    let m :=
      if b &&& 1 ≠ 0 then
        let t := P - a
        if m ≥ t then m - t else m + a
      else m
    let a := if a ≥ P - a then a * 2 - P else a * 2
    mulLoop m a (b >>> 1)
termination_by b.toNat
decreasing_by
  rename_i h
  have hpos : b.toNat ≠ 0 := fun hzero => h (UInt64.toNat_inj.mp hzero)
  simp
  omega

def mulModP (a b : UInt64) : UInt64 := mulLoop 0 a b

/-- `pow_mod_p` halves `b` until it is 1, and goes on forever when it is 0. -/
def powModP (a b : UInt64) : M UInt64 :=
  if b = 0 then .fail .endless
  else if b = 1 then .ok a
  else do
    let t ← powModP a (b >>> 1)
    let t := mulModP t t
    .ok (if b % 2 ≠ 0 then mulModP t a else t)
termination_by b.toNat
decreasing_by
  rename_i h _
  have hpos : b.toNat ≠ 0 := fun hzero => h (UInt64.toNat_inj.mp hzero)
  simp
  omega

def powmodp (a b : UInt64) : M UInt64 := powModP (if a > P then a % P else a) b

def word (x : List UInt8) (i : Nat) : UInt32 :=
  (x.getD i 0).toUInt32 ||| (x.getD (i + 1) 0).toUInt32 <<< 8 |||
    (x.getD (i + 2) 0).toUInt32 <<< 16 ||| (x.getD (i + 3) 0).toUInt32 <<< 24

/-- The two words of a key put together. -/
def number (x : List UInt8) : UInt64 := (word x 0).toUInt64 ||| (word x 4).toUInt64 <<< 32

/-- `read64` on one of its arguments. -/
def read64 (x : List UInt8) (message : String) : M UInt64 :=
  if x.length ≠ 8 then .fail (.error message) else .ok (number x)

def push64 (r : UInt64) : List UInt8 :=
  [r.toUInt8, (r >>> 8).toUInt8, (r >>> 16).toUInt8, (r >>> 24).toUInt8,
    (r >>> 32).toUInt8, (r >>> 40).toUInt8, (r >>> 48).toUInt8, (r >>> 56).toUInt8]

def dhsecret (x y : List UInt8) : M (List UInt8) := do
  let a ← read64 x "Invalid uint64 x"
  let b ← read64 y "Invalid uint64 y"
  let r ← powmodp a b
  .ok (push64 r)

def dhexchange (x : List UInt8) : M (List UInt8) := do
  let b ← read64 x "Invalid dh uint64 key"
  let r ← powmodp G b
  .ok (push64 r)

/-! ## Products -/

theorem toNat_P : P.toNat = 2 ^ 64 - 59 := by decide

/-- A sum that is kept below the modulus. -/
theorem addModP {m a : UInt64} (hm : m < P) (ha : a ≤ P) :
    (if m ≥ P - a then m - (P - a) else m + a) < P ∧
      (if m ≥ P - a then m - (P - a) else m + a).toNat ≡ m.toNat + a.toNat [MOD P.toNat] := by
  have hP := toNat_P
  have hsub : (P - a).toNat = P.toNat - a.toNat := UInt64.toNat_sub_of_le _ _ ha
  rw [UInt64.lt_iff_toNat_lt] at hm ⊢
  rw [UInt64.le_iff_toNat_le] at ha
  split
  · rename_i hge
    have hres : (m - (P - a)).toNat = m.toNat - (P.toNat - a.toNat) := by
      rw [UInt64.toNat_sub_of_le _ _ hge, hsub]
    rw [hres]
    rw [ge_iff_le, UInt64.le_iff_toNat_le, hsub] at hge
    refine ⟨by omega, ?_⟩
    have hsum : m.toNat + a.toNat = m.toNat - (P.toNat - a.toNat) + P.toNat := by omega
    rw [hsum]
    exact (Nat.add_mod_right _ _).symm
  · rename_i hlt
    rw [ge_iff_le, UInt64.le_iff_toNat_le, hsub] at hlt
    have hres : (m + a).toNat = m.toNat + a.toNat := by
      rw [UInt64.toNat_add]
      exact Nat.mod_eq_of_lt (by omega)
    rw [hres]
    exact ⟨by omega, rfl⟩

/-- The double of `a`, which may be the modulus itself. -/
theorem doubleModP {a : UInt64} (ha : a ≤ P) :
    (if a ≥ P - a then a * 2 - P else a * 2) ≤ P ∧
      (if a ≥ P - a then a * 2 - P else a * 2).toNat ≡ 2 * a.toNat [MOD P.toNat] := by
  have hP := toNat_P
  have hsub : (P - a).toNat = P.toNat - a.toNat := UInt64.toNat_sub_of_le _ _ ha
  rw [UInt64.le_iff_toNat_le] at ha ⊢
  split
  · rename_i hge
    rw [ge_iff_le, UInt64.le_iff_toNat_le, hsub] at hge
    have hres : (a * 2 - P).toNat = 2 * a.toNat - P.toNat := by
      rw [UInt64.toNat_sub, UInt64.toNat_mul]
      simp
      omega
    rw [hres]
    refine ⟨by omega, ?_⟩
    have hsum : 2 * a.toNat = 2 * a.toNat - P.toNat + P.toNat := by omega
    rw [Nat.ModEq, hsum, Nat.add_sub_cancel]
    exact (Nat.add_mod_right _ _).symm
  · rename_i hlt
    rw [ge_iff_le, UInt64.le_iff_toNat_le, hsub] at hlt
    have hres : (a * 2).toNat = 2 * a.toNat := by
      rw [UInt64.toNat_mul]
      simp
      omega
    rw [hres]
    exact ⟨by omega, rfl⟩

/-- The lowest bit, and what is left when it is shifted out. -/
theorem toNat_shiftRight_one (b : UInt64) : (b >>> 1).toNat = b.toNat / 2 := by
  simp [Nat.shiftRight_eq_div_pow]

theorem and_one_ne_zero_iff (b : UInt64) : b &&& 1 ≠ 0 ↔ b.toNat % 2 = 1 := by
  rw [Ne, ← UInt64.toNat_inj, UInt64.toNat_and]
  simp [Nat.and_one_is_mod]

theorem mod_two_ne_zero_iff (b : UInt64) : b % 2 ≠ 0 ↔ b.toNat % 2 = 1 := by
  rw [Ne, ← UInt64.toNat_inj, UInt64.toNat_mod]
  simp

/-- Each round adds `a` for the lowest bit of `b`. -/
theorem mulLoop_modEq (m a b : UInt64) (hm : m < P) (ha : a ≤ P) :
    mulLoop m a b < P ∧
      (mulLoop m a b).toNat ≡ m.toNat + a.toNat * b.toNat [MOD P.toNat] := by
  induction hn : b.toNat using Nat.strong_induction_on generalizing m a b with
  | h n ih =>
      rw [mulLoop]
      by_cases hb : b = 0
      · rw [if_pos hb]
        have hzero : n = 0 := by rw [← hn, hb]; rfl
        rw [hzero, Nat.mul_zero, Nat.add_zero]
        exact ⟨hm, rfl⟩
      have hpos : b.toNat ≠ 0 := fun hzero => hb (UInt64.toNat_inj.mp hzero)
      have hhalf := toNat_shiftRight_one b
      obtain ⟨hdouble, hdoubleEq⟩ := doubleModP ha
      rw [if_neg hb]
      dsimp only
      generalize (if a ≥ P - a then a * 2 - P else a * 2) = a' at hdouble hdoubleEq
      have hsum : ∃ m', (if b &&& 1 ≠ 0 then (if m ≥ P - a then m - (P - a) else m + a) else m) =
          m' ∧ m' < P ∧ m'.toNat ≡ m.toNat + a.toNat * (b.toNat % 2) [MOD P.toNat] := by
        refine ⟨_, rfl, ?_⟩
        by_cases hodd : b &&& 1 ≠ 0
        · rw [if_pos hodd, (and_one_ne_zero_iff b).mp hodd, Nat.mul_one]
          exact addModP hm ha
        · have heven : b.toNat % 2 = 0 := by
            have := (and_one_ne_zero_iff b).not.mp hodd
            omega
          rw [if_neg hodd, heven, Nat.mul_zero, Nat.add_zero]
          exact ⟨hm, rfl⟩
      obtain ⟨m', hm', hlt, hsumEq⟩ := hsum
      rw [hm']
      obtain ⟨hres, hresEq⟩ := ih (b >>> 1).toNat (by omega) m' a' (b >>> 1) hlt hdouble rfl
      refine ⟨hres, hresEq.trans ?_⟩
      have hbits : m.toNat + a.toNat * n =
          m.toNat + a.toNat * (b.toNat % 2) + 2 * a.toNat * (b.toNat / 2) := by
        have hsplit : n = b.toNat % 2 + 2 * (b.toNat / 2) := by omega
        conv_lhs => rw [hsplit]
        ring
      rw [hbits, hhalf]
      exact hsumEq.add (hdoubleEq.mul_right _)

theorem mulModP_modEq {a : UInt64} (ha : a ≤ P) (b : UInt64) :
    mulModP a b < P ∧ (mulModP a b).toNat ≡ a.toNat * b.toNat [MOD P.toNat] := by
  have hloop := mulLoop_modEq 0 a b (by decide) ha
  rwa [UInt64.toNat_zero, Nat.zero_add] at hloop

/-! ## Powers -/

theorem powModP_modEq {a : UInt64} (ha : a ≤ P) (b : UInt64) (hb : b ≠ 0) :
    ∃ r, powModP a b = .ok r ∧ (r < P ∨ (r = a ∧ b = 1)) ∧
      r.toNat ≡ a.toNat ^ b.toNat [MOD P.toNat] := by
  induction hn : b.toNat using Nat.strong_induction_on generalizing b with
  | h n ih =>
      rw [powModP, if_neg hb]
      by_cases hone : b = 1
      · have hexp : n = 1 := by rw [← hn, hone]; rfl
        rw [if_pos hone, hexp, Nat.pow_one]
        exact ⟨a, rfl, .inr ⟨rfl, hone⟩, rfl⟩
      have hpos : b.toNat ≠ 0 := fun hzero => hb (UInt64.toNat_inj.mp hzero)
      have htwo : b.toNat ≠ 1 := fun h => hone (UInt64.toNat_inj.mp h)
      have hhalf := toNat_shiftRight_one b
      have hhalfPos : b >>> 1 ≠ 0 := by
        intro hzero
        rw [hzero, UInt64.toNat_zero] at hhalf
        omega
      obtain ⟨t, ht, hsmall, hpow⟩ := ih (b >>> 1).toNat (by omega) (b >>> 1) hhalfPos rfl
      have hle : t ≤ P := by
        rcases hsmall with hlt | ⟨heq, -⟩
        · exact UInt64.le_of_lt hlt
        · exact heq ▸ ha
      obtain ⟨hsquare, hsquareEq⟩ := mulModP_modEq hle t
      have hsq : (mulModP t t).toNat ≡ a.toNat ^ (b.toNat / 2 + b.toNat / 2) [MOD P.toNat] := by
        rw [pow_add, ← hhalf]
        exact hsquareEq.trans (hpow.mul hpow)
      rw [if_neg hone, ht, Outcome.ok_bind]
      dsimp only
      by_cases hodd : b % 2 ≠ 0
      · obtain ⟨hlt, hmul⟩ := mulModP_modEq (UInt64.le_of_lt hsquare) a
        have hexp : n = b.toNat / 2 + b.toNat / 2 + 1 := by
          have := (mod_two_ne_zero_iff b).mp hodd
          omega
        rw [if_pos hodd, hexp, pow_succ]
        exact ⟨_, rfl, .inl hlt, hmul.trans (hsq.mul_right _)⟩
      · have hexp : n = b.toNat / 2 + b.toNat / 2 := by
          have := (mod_two_ne_zero_iff b).not.mp hodd
          omega
        rw [if_neg hodd, hexp]
        exact ⟨_, rfl, .inl hsquare, hsq⟩

/-- The power, but for the modulus itself to the power 1, which stays as it is. -/
theorem powmodp_eq {a b : UInt64} (hb : b ≠ 0) (h : a ≠ P ∨ b ≠ 1) :
    ∃ r, powmodp a b = .ok r ∧ r.toNat = a.toNat ^ b.toNat % P.toNat := by
  have hP := toNat_P
  have hbase : ∃ a', (if a > P then a % P else a) = a' ∧ a' ≤ P ∧ (a' = P → a = P) ∧
      a'.toNat ≡ a.toNat [MOD P.toNat] := by
    refine ⟨_, rfl, ?_⟩
    by_cases hgt : a > P
    · rw [if_pos hgt]
      have hlt : (a % P).toNat < P.toNat := by
        rw [UInt64.toNat_mod]
        exact Nat.mod_lt _ (by omega)
      have hne : a % P ≠ P := fun heq => by
        rw [heq] at hlt
        exact Nat.lt_irrefl _ hlt
      refine ⟨UInt64.le_iff_toNat_le.mpr (Nat.le_of_lt hlt), fun heq => absurd heq hne, ?_⟩
      rw [UInt64.toNat_mod]
      exact Nat.mod_modEq _ _
    · rw [if_neg hgt]
      exact ⟨UInt64.not_lt.mp hgt, id, rfl⟩
  obtain ⟨a', ha', hle, hsame, hmod⟩ := hbase
  obtain ⟨r, hr, hsmall, hpow⟩ := powModP_modEq hle b hb
  have hlt : r < P := by
    rcases hsmall with hlt | ⟨heq, hone⟩
    · exact hlt
    · rcases UInt64.lt_or_eq_of_le (heq ▸ hle : r ≤ P) with hlt | hmax
      · exact hlt
      · exact absurd (hsame (heq.symm.trans hmax)) (h.resolve_right (not_not.mpr hone))
  rw [powmodp, ha']
  refine ⟨r, hr, ?_⟩
  have hres := hpow.trans (hmod.pow b.toNat)
  rw [Nat.ModEq, Nat.mod_eq_of_lt (UInt64.lt_iff_toNat_lt.mp hlt)] at hres
  exact hres

/-! ## Keys -/

theorem word_push64 (r : UInt64) : word (push64 r) 0 = r.toUInt32 := by
  apply UInt32.toBitVec_inj.mp
  simp only [push64, word, List.getD_cons_zero, List.getD_cons_succ, UInt32.toBitVec_or,
    UInt32.toBitVec_shiftLeft, UInt8.toBitVec_toUInt32, UInt64.toBitVec_toUInt8,
    UInt64.toBitVec_shiftRight, UInt64.toBitVec_toUInt32]
  apply BitVec.eq_of_getLsbD_eq
  intro i hi
  interval_cases i <;> simp

theorem word_push64_high (r : UInt64) : word (push64 r) 4 = (r >>> 32).toUInt32 := by
  apply UInt32.toBitVec_inj.mp
  simp only [push64, word, List.getD_cons_zero, List.getD_cons_succ, UInt32.toBitVec_or,
    UInt32.toBitVec_shiftLeft, UInt8.toBitVec_toUInt32, UInt64.toBitVec_toUInt8,
    UInt64.toBitVec_shiftRight, UInt64.toBitVec_toUInt32]
  apply BitVec.eq_of_getLsbD_eq
  intro i hi
  interval_cases i <;> simp

theorem number_push64 (r : UInt64) : number (push64 r) = r := by
  rw [number, word_push64, word_push64_high]
  apply UInt64.toBitVec_inj.mp
  simp only [UInt64.toBitVec_or, UInt32.toBitVec_toUInt64, UInt64.toBitVec_toUInt32,
    UInt64.toBitVec_shiftLeft, UInt64.toBitVec_shiftRight]
  apply BitVec.eq_of_getLsbD_eq
  intro i hi
  by_cases hlow : i < 32
  · simp [hlow, hi]
  · have hback : 32 + (i - 32) = i := by omega
    have hhigh : i - 32 < 32 := by omega
    simp [hlow, hback, hhigh, hi]

theorem push64_number {x : List UInt8} (h : x.length = 8) : push64 (number x) = x := by
  rcases x with _ | ⟨a, _ | ⟨b, _ | ⟨c, _ | ⟨d, high⟩⟩⟩⟩
  case cons.cons.cons.cons =>
    rcases high with _ | ⟨e, _ | ⟨f, _ | ⟨g, _ | ⟨k, rest⟩⟩⟩⟩
    case cons.cons.cons.cons =>
      obtain rfl : rest = [] := List.eq_nil_of_length_eq_zero (by simpa using h)
      simp only [number, push64, word, List.getD_cons_zero, List.getD_cons_succ]
      simp only [List.cons.injEq, and_true]
      refine ⟨?_, ?_, ?_, ?_, ?_, ?_, ?_, ?_⟩
      all_goals
        apply UInt8.toBitVec_inj.mp
        simp only [UInt64.toBitVec_or, UInt64.toBitVec_shiftLeft, UInt32.toBitVec_toUInt64,
          UInt32.toBitVec_or, UInt32.toBitVec_shiftLeft, UInt8.toBitVec_toUInt32,
          UInt64.toBitVec_toUInt8, UInt64.toBitVec_shiftRight]
        apply BitVec.eq_of_getLsbD_eq
        intro i hi
        interval_cases i <;> simp
    all_goals simp at h
  all_goals simp at h

theorem number_ne_zero {x : List UInt8} (h : x.length = 8) (hx : x ≠ List.replicate 8 0) :
    number x ≠ 0 := by
  intro hzero
  have hback := push64_number h
  rw [hzero] at hback
  exact hx hback.symm

theorem read64_eq {x : List UInt8} (h : x.length = 8) (message : String) :
    read64 x message = .ok (number x) := if_neg (not_not.mpr h)

theorem dhexchange_eq {x : List UInt8} (h : x.length = 8) (hx : x ≠ List.replicate 8 0) :
    ∃ r, dhexchange x = .ok (push64 r) ∧
      r.toNat = G.toNat ^ (number x).toNat % P.toNat := by
  obtain ⟨r, hr, hpow⟩ := powmodp_eq (a := G) (number_ne_zero h hx) (.inl (by decide))
  refine ⟨r, ?_, hpow⟩
  rw [dhexchange, read64_eq h, Outcome.ok_bind, hr, Outcome.ok_bind]

theorem dhsecret_eq {x : List UInt8} {a : UInt64} (ha : a < P) (h : x.length = 8)
    (hx : x ≠ List.replicate 8 0) :
    ∃ r, dhsecret (push64 a) x = .ok (push64 r) ∧
      r.toNat = a.toNat ^ (number x).toNat % P.toNat := by
  have hne : a ≠ P := fun heq => UInt64.lt_irrefl P (heq ▸ ha)
  obtain ⟨r, hr, hpow⟩ := powmodp_eq (number_ne_zero h hx) (.inl hne)
  refine ⟨r, ?_, hpow⟩
  rw [dhsecret, read64_eq rfl, Outcome.ok_bind, read64_eq h, Outcome.ok_bind, number_push64, hr,
    Outcome.ok_bind]

/-- Two sides that exchange what `dhexchange` makes of their keys come to the same secret. -/
theorem dhsecret_agree (x y : List UInt8) (h : x.length = 8) (hx : x ≠ List.replicate 8 0)
    (h' : y.length = 8) (hy : y ≠ List.replicate 8 0) :
    ∃ a b secret, dhexchange x = .ok a ∧ dhexchange y = .ok b ∧
      dhsecret b x = .ok secret ∧ dhsecret a y = .ok secret ∧
      (number secret).toNat =
        G.toNat ^ ((number x).toNat * (number y).toNat) % P.toNat := by
  have hP := toNat_P
  obtain ⟨a, ha, hpowa⟩ := dhexchange_eq h hx
  obtain ⟨b, hb, hpowb⟩ := dhexchange_eq h' hy
  have hlta : a < P := UInt64.lt_iff_toNat_lt.mpr (hpowa ▸ Nat.mod_lt _ (by omega))
  have hltb : b < P := UInt64.lt_iff_toNat_lt.mpr (hpowb ▸ Nat.mod_lt _ (by omega))
  obtain ⟨r, hr, hsecret⟩ := dhsecret_eq hltb h hx
  obtain ⟨r', hr', hsecret'⟩ := dhsecret_eq hlta h' hy
  rw [hpowb, ← Nat.pow_mod, ← Nat.pow_mul, Nat.mul_comm] at hsecret
  rw [hpowa, ← Nat.pow_mod, ← Nat.pow_mul] at hsecret'
  have hsame : r = r' := UInt64.toNat_inj.mp (hsecret.trans hsecret'.symm)
  refine ⟨push64 a, push64 b, push64 r, ha, hb, hr, ?_, ?_⟩
  · rw [hsame]
    exact hr'
  · rw [number_push64, hsecret]

theorem dhsecret_agree_sample :
    ∃ a b secret, dhexchange [3, 0, 0, 0, 0, 0, 0, 0] = .ok a ∧
      dhexchange [0, 1, 0, 0, 0, 0, 0, 0] = .ok b ∧
      dhsecret b [3, 0, 0, 0, 0, 0, 0, 0] = .ok secret ∧
      dhsecret a [0, 1, 0, 0, 0, 0, 0, 0] = .ok secret ∧
      (number secret).toNat = G.toNat ^ ((number [3, 0, 0, 0, 0, 0, 0, 0]).toNat *
        (number [0, 1, 0, 0, 0, 0, 0, 0]).toNat) % P.toNat :=
  dhsecret_agree [3, 0, 0, 0, 0, 0, 0, 0] [0, 1, 0, 0, 0, 0, 0, 0] rfl (by decide) rfl (by decide)

end Jump.Skynet.Crypt
