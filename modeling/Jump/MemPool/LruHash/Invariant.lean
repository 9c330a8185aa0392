import Jump.Core.Block
import Jump.MemPool.LruHash.Code
import Jump.MemPool.LruHash.Lists
import Mathlib.Data.List.DropRight
import Mathlib.Logic.Function.Basic

/-! # The invariant of a `mem_lru_hashtable`

A table is for at most `N` elements in a row, the last activated one in front, each with its
iterator and its priority. An operation that picks one of several elements with
equal keys may pick any of them.

`Lists` says how the nodes are shared out, `Buckets` where the used ones hang: each
on the chain of its hash and on no other, equal keys side by side. Each edit of a
chain keeps `Buckets`, whatever the lists do at the same time.
-/

namespace Jump.MemPool.LruHash

/-! ## What a table is for -/

/-- An element with the iterator that stands for it and its priority. -/
structure Entry (V : Type) where
  node : Nat
  value : V
  priority : Nat

/-- The operations that may change the table; an iterator is its serial. `reattach` is
`initialize` with `brestore`. -/
inductive Op (V K : Type) where
  | clear
  | reattach (numnode : Nat)
  | insert (v : V) (prio : Nat)
  | insertEqual (v : V) (prio : Nat)
  | erase (k : K)
  | eraseIter (itseq : Nat)
  | eraseValue (v : V)
  | eraseEqual (k : K)
  | eraseEqualValue (v : V)
  | active (k : K) (prio : Nat)
  | activeValue (v : V) (prio : Nat)
  | activeEqual (k : K) (prio : Nat)
  | mark (k : K) (prio : Nat)
  | markValue (v : V) (prio : Nat)
  | markEqual (k : K) (prio : Nat)
  | expire (expireTime : Nat)
  | disuse (disuseNum : Nat) (disuseEqual : Bool)
  | washout (washPriority numWash : Nat)

inductive Res where
  | done
  | flag (b : Bool)
  | iterNew (pos : Nat) (inserted : Bool)
  | count (n : Nat)
  deriving DecidableEq, Repr

/-- The call of the washout functor on an element. -/
def Entry.call {V : Type} (e : Entry V) : Nat × V := (e.node, e.value)

def Entry.mark {V : Type} (prio : Nat) (e : Entry V) : Entry V := { e with priority := prio }

section Spec

variable {V K : Type} (T : Params V K) (N : Nat)

def hasKey (k : K) (e : Entry V) : Bool := T.equalKey (T.extractKey e.value) k

/-- No element has the key, or one that has it is changed. -/
def OnOne (k : K) (change : List (Entry V) → Entry V → List (Entry V) → List (Entry V))
    (s : List (Entry V)) (r : Res) (s' : List (Entry V)) : Prop :=
  ((∀ e ∈ s, ¬ hasKey T k e = true) ∧ r = .flag false ∧ s' = s) ∨
    ∃ xs e ys, s = xs ++ e :: ys ∧ hasKey T k e = true ∧ r = .flag true ∧ s' = change xs e ys

/-- The table is full, or `v` is added in front under a fresh iterator. -/
def Added (v : V) (prio : Nat) (s : List (Entry V)) (r : Res) (s' : List (Entry V)) : Prop :=
  if s.length = N then r = .iterNew INVALID_POINT false ∧ s' = s
  else ∃ pos < N, pos ∉ s.map Entry.node ∧ r = .iterNew pos true ∧ s' = ⟨pos, v, prio⟩ :: s

def expired (expireTime : Nat) (e : Entry V) : Bool := e.priority ≤ expireTime

/-- The priority up to which `disuse` goes on, that of the last element it took. -/
def disusePriority (disuseNum : Nat) (s : List (Entry V)) : Nat :=
  ((s.rtake disuseNum).head?.map Entry.priority).getD 0

/-- The operations on the row, with the calls of the washout functor. -/
def LruStep : Op V K → List (Entry V) → Res → List (Nat × V) → List (Entry V) → Prop
  | .clear, _, r, w, s' => r = .done ∧ w = [] ∧ s' = []
  | .reattach _, s, r, w, s' => (∃ b, r = .flag b) ∧ w = [] ∧ s' = s
  | .insert v prio, s, r, w, s' => w = [] ∧
      ((∃ e ∈ s, hasKey T (T.extractKey v) e = true ∧ r = .iterNew e.node false ∧ s' = s) ∨
        (∀ e ∈ s, ¬ hasKey T (T.extractKey v) e = true) ∧ Added N v prio s r s')
  | .insertEqual v prio, s, r, w, s' => w = [] ∧ Added N v prio s r s'
  | .erase k, s, r, w, s' => w = [] ∧ OnOne T k (fun xs _ ys => xs ++ ys) s r s'
  | .eraseIter itseq, s, r, w, s' => w = [] ∧
      r = .flag (s.any (·.node = itseq)) ∧ s' = s.filter (·.node ≠ itseq)
  | .eraseValue v, s, r, w, s' =>
      w = [] ∧ OnOne T (T.extractKey v) (fun xs _ ys => xs ++ ys) s r s'
  | .eraseEqual k, s, r, w, s' => w = [] ∧
      r = .count (s.countP (hasKey T k)) ∧ s' = s.filter fun e => !hasKey T k e
  | .eraseEqualValue v, s, r, w, s' => w = [] ∧
      r = .flag (s.any (hasKey T (T.extractKey v))) ∧
      s' = s.filter fun e => !hasKey T (T.extractKey v) e
  | .active k prio, s, r, w, s' =>
      w = [] ∧ OnOne T k (fun xs e ys => e.mark prio :: (xs ++ ys)) s r s'
  | .activeValue v prio, s, r, w, s' => w = [] ∧
      OnOne T (T.extractKey v) (fun xs e ys => ⟨e.node, v, prio⟩ :: (xs ++ ys)) s r s'
  | .activeEqual k prio, s, r, w, s' => w = [] ∧ r = .count 0 ∧
      ∃ moved : List (Entry V), moved.Perm (s.filter (hasKey T k)) ∧
        s' = moved.map (Entry.mark prio) ++ s.filter fun e => !hasKey T k e
  | .mark k prio, s, r, w, s' =>
      w = [] ∧ OnOne T k (fun xs e ys => xs ++ e.mark prio :: ys) s r s'
  | .markValue v prio, s, r, w, s' => w = [] ∧
      OnOne T (T.extractKey v) (fun xs e ys => xs ++ ⟨e.node, v, prio⟩ :: ys) s r s'
  | .markEqual k prio, s, r, w, s' => w = [] ∧ r = .flag false ∧
      s' = s.map fun e => if hasKey T k e then e.mark prio else e
  | .expire expireTime, s, r, w, s' =>
      r = .count (s.rtakeWhile (expired expireTime)).length ∧
        w = (s.rtakeWhile (expired expireTime)).reverse.map Entry.call ∧
        s' = s.rdropWhile (expired expireTime)
  | .disuse disuseNum disuseEqual, s, r, w, s' =>
      let old := expired (disusePriority disuseNum s)
      if disuseEqual ∧ 0 < disuseNum then
        r = .count ((s.rtake disuseNum).length + ((s.rdrop disuseNum).rtakeWhile old).length) ∧
          w = ((s.rdrop disuseNum).rtakeWhile old ++ s.rtake disuseNum).reverse.map Entry.call ∧
          s' = (s.rdrop disuseNum).rdropWhile old
      else
        r = .count (s.rtake disuseNum).length ∧
          w = (s.rtake disuseNum).reverse.map Entry.call ∧ s' = s.rdrop disuseNum
  | .washout washPriority numWash, s, r, w, s' =>
      (∀ e ∈ s.take numWash, e.priority < washPriority) ∧ r = .done ∧
        w = (s.take numWash).map Entry.call ∧ s' = s.drop numWash

end Spec

/-! ## The buckets -/

section Buckets

open Jump.Core Prog

variable {V K : Type} {T : Params V K} {N : Nat} {us us' fs : List Nat} {ch : Nat → List Nat}
  {m m' : Mem V} {n b : Nat} {k : K}

/-- The bucket of a value. -/
def bucketOf (T : Params V K) (N : Nat) (v : V) : Nat := T.hashFun (T.extractKey v) % N

/-- Node `i` holds the key. -/
def nodeHasKey (T : Params V K) (m : Mem V) (k : K) (i : Nat) : Bool :=
  T.equalKey (T.extractKey (m.value i)) k

structure Buckets (T : Params V K) (N : Nat) (us : List Nat) (ch : Nat → List Nat) (m : Mem V) :
    Prop where
  chain : ∀ b < N, Chain m.hashIndex INVALID_POINT (m.hashFactor b) (ch b)
  distinct : ∀ b < N, (ch b).Nodup
  members : ∀ b < N, ∀ i, i ∈ ch b ↔ i ∈ us ∧ bucketOf T N (m.value i) = b
  block : ∀ b < N, ∀ k, Block (nodeHasKey T m k) (ch b)

structure Inv (T : Params V K) (N : Nat) (us fs : List Nat) (ch : Nat → List Nat) (m : Mem V) :
    Prop extends Lists N us fs m, Buckets T N us ch m where
  pos : 0 < N
  bound : N < INVALID_POINT

namespace Lists

theorem distinct (h : Lists N us fs m) : us.Nodup :=
  (List.nodup_cons.mp h.rings.distinct_left).2

theorem lt (h : Lists N us fs m) (hn : n ∈ us) : n < N :=
  List.mem_range.mp (h.nodes.mem_iff.mp (List.mem_append_left fs hn))

theorem free_lt (h : Lists N us fs m) (hn : n ∈ fs) : n < N :=
  List.mem_range.mp (h.nodes.mem_iff.mp (List.mem_append_right us hn))

theorem not_mem_of_free (h : Lists N us fs m) (hn : n ∈ fs) : n ∉ us := fun hu =>
  h.rings.apart (List.mem_cons_of_mem N hu) (List.mem_cons_of_mem _ hn)

end Lists

theorem Inv.ne_invalid (h : Inv T N us fs ch m) (hn : n ∈ us) : n ≠ INVALID_POINT :=
  Nat.ne_of_lt (Nat.lt_trans (h.lt hn) h.bound)

theorem Inv.used (h : Inv T N us fs ch m) (hb : b < N) (hn : n ∈ ch b) : n ∈ us :=
  ((h.members b hb n).mp hn).1

theorem Inv.invalid_not_mem (h : Inv T N us fs ch m) (hb : b < N) : INVALID_POINT ∉ ch b :=
  fun hm => h.ne_invalid (h.used hb hm) rfl

theorem Inv.bucket_lt (h : Inv T N us fs ch m) (v : V) : bucketOf T N v < N :=
  Nat.mod_lt _ h.pos

theorem bucketOf_eq {v w : V} (h : T.equalKey (T.extractKey v) (T.extractKey w) = true) :
    bucketOf T N v = bucketOf T N w := by
  rw [bucketOf, bucketOf, T.hash_eq _ _ h]

theorem equalKey_congr {k k' l : K} (h : T.equalKey k k' = true) :
    T.equalKey k' l = T.equalKey k l := by
  rw [Bool.eq_iff_iff]
  exact ⟨T.equiv.trans h, T.equiv.trans (T.equiv.symm h)⟩

/-- A used node with the key is on the chain of the key. -/
theorem Inv.mem_chain (h : Inv T N us fs ch m) (hn : n ∈ us) (hk : nodeHasKey T m k n = true) :
    n ∈ ch (T.hashFun k % N) := by
  refine (h.members _ (Nat.mod_lt _ h.pos) n).mpr ⟨hn, ?_⟩
  rw [bucketOf, T.hash_eq _ _ hk]

/-- The nodes with a key are those on its chain that have it. -/
theorem Inv.filter_chain (h : Inv T N us fs ch m) :
    ((ch (T.hashFun k % N)).filter (nodeHasKey T m k)).Perm (us.filter (nodeHasKey T m k)) := by
  have hb : T.hashFun k % N < N := Nat.mod_lt _ h.pos
  refine (List.perm_ext_iff_of_nodup ((h.toBuckets.distinct _ hb).filter _)
    (h.toLists.distinct.filter _)).mpr fun i => ?_
  simp only [List.mem_filter]
  exact ⟨fun hi => ⟨h.used hb hi.1, hi.2⟩, fun hi => ⟨h.mem_chain hi.1 hi.2, hi.2⟩⟩

/-! ## Edits of a chain -/

namespace Buckets

/-- Neither the order of the use list nor anything outside the chains matters. -/
theorem congr (h : Buckets T N us ch m) (hu : ∀ i, i ∈ us' ↔ i ∈ us)
    (factor : m'.hashFactor = m.hashFactor) (index : m'.hashIndex = m.hashIndex)
    (value : m'.value = m.value) : Buckets T N us' ch m' := by
  refine ⟨fun b hb => ?_, h.distinct, fun b hb i => ?_, fun b hb k => ?_⟩
  · rw [factor, index]
    exact h.chain b hb
  · rw [value, hu]
    exact h.members b hb i
  · exact (h.block b hb k).congr fun i _ => by rw [nodeHasKey, nodeHasKey, value]

theorem disjoint (h : Buckets T N us ch m) {b' i : Nat} (hb : b < N) (hb' : b' < N)
    (hi : i ∈ ch b) (hi' : i ∈ ch b') : b' = b :=
  ((h.members b' hb' i).mp hi').2.symm.trans ((h.members b hb i).mp hi).2

/-- A node gets a value with an equal key. -/
theorem revalue (h : Buckets T N us ch m) {v : V}
    (hk : T.equalKey (T.extractKey (m.value n)) (T.extractKey v) = true)
    (factor : m'.hashFactor = m.hashFactor) (index : m'.hashIndex = m.hashIndex)
    (value : ∀ i, m'.value i = if i = n then v else m.value i) : Buckets T N us ch m' := by
  have hkey : ∀ k i, nodeHasKey T m' k i = nodeHasKey T m k i := fun k i => by
    rw [nodeHasKey, nodeHasKey, value]
    split
    · next he => rw [he, equalKey_congr hk]
    · rfl
  refine ⟨fun b hb => ?_, h.distinct, fun b hb i => ?_, fun b hb k => ?_⟩
  · rw [factor, index]
    exact h.chain b hb
  · rw [h.members b hb i, value]
    split
    · next he => rw [he, bucketOf_eq hk]
    · rfl
  · exact (h.block b hb k).congr fun i _ => hkey k i

section Insert

variable {v : V} (h : Buckets T N us ch m) (hb : b < N) (hv : bucketOf T N v = b)
  (fresh : n ∉ us) (value : ∀ i, m'.value i = if i = n then v else m.value i)

include fresh value

theorem value_old {i : Nat} (hi : i ∈ us) : m'.value i = m.value i := by
  rw [value, if_neg fun he : i = n => fresh (he ▸ hi)]

include h hb hv

/-- `n` enters bucket `b` with the value `v`; the other chains stay. -/
theorem enter {row : List Nat} (hrow : row.Perm (n :: ch b))
    (chain : Chain m'.hashIndex INVALID_POINT (m'.hashFactor b) row)
    (block : ∀ k, Block (nodeHasKey T m' k) row)
    (factor : ∀ i, i ≠ b → m'.hashFactor i = m.hashFactor i)
    (index : ∀ i, i ≠ n → i ∉ ch b → m'.hashIndex i = m.hashIndex i) :
    Buckets T N (n :: us) (Function.update ch b row) m' := by
  have hold : ∀ b' < N, ∀ i ∈ ch b', i ∈ us := fun b' hb' i hi => ((h.members b' hb' i).mp hi).1
  refine ⟨fun b' hb' => ?_, fun b' hb' => ?_, fun b' hb' i => ?_, fun b' hb' k => ?_⟩
  all_goals by_cases hbb : b' = b
  · subst hbb
    rwa [Function.update_self]
  · rw [Function.update_of_ne hbb, factor b' hbb]
    refine (h.chain b' hb').congr fun i hi => index i (fun he => ?_) fun hib => ?_
    · exact fresh (he ▸ hold b' hb' i hi)
    · exact hbb (h.disjoint hb hb' hib hi)
  · subst hbb
    rw [Function.update_self, hrow.nodup_iff, List.nodup_cons]
    exact ⟨fun hn => fresh (hold b' hb' n hn), h.distinct b' hb'⟩
  · rw [Function.update_of_ne hbb]
    exact h.distinct b' hb'
  · subst hbb
    rw [Function.update_self, hrow.mem_iff, List.mem_cons, List.mem_cons, h.members b' hb']
    by_cases hi : i = n
    · subst hi
      rw [value, if_pos rfl]
      simp [hv]
    · rw [value, if_neg hi]
      simp [hi]
  · rw [Function.update_of_ne hbb, List.mem_cons, h.members b' hb']
    by_cases hi : i = n
    · subst hi
      rw [value, if_pos rfl, hv]
      simp [fresh, Ne.symm hbb]
    · rw [value, if_neg hi]
      simp [hi]
  · subst hbb
    rw [Function.update_self]
    exact block k
  · rw [Function.update_of_ne hbb]
    refine (h.block b' hb' k).congr fun i hi => ?_
    rw [nodeHasKey, nodeHasKey, value_old fresh value (hold b' hb' i hi)]

omit hv in
theorem nodeHasKey_old {i : Nat} (hi : i ∈ ch b) (k : K) :
    nodeHasKey T m' k i = nodeHasKey T m k i := by
  rw [nodeHasKey, nodeHasKey, value_old fresh value ((h.members b hb i).mp hi).1]

/-- `n` goes in front of its chain, on which no node has its key. -/
theorem front (absent : ∀ i ∈ ch b, ¬ nodeHasKey T m (T.extractKey v) i = true)
    (factor : ∀ i, m'.hashFactor i = if i = b then n else m.hashFactor i)
    (index : ∀ i, m'.hashIndex i = if i = n then m.hashFactor b else m.hashIndex i) :
    Buckets T N (n :: us) (Function.update ch b (n :: ch b)) m' := by
  have hn : n ∉ ch b := fun hm => fresh ((h.members b hb n).mp hm).1
  have hkey := fun i (hi : i ∈ ch b) k => h.nodeHasKey_old hb fresh value hi k
  refine h.enter hb hv fresh value (List.Perm.refl _) ⟨?_, ?_⟩ (fun k => ?_)
    (fun i hi => by rw [factor, if_neg hi]) fun i hi _ => by rw [index, if_neg hi]
  · rw [factor, if_pos rfl]
  · rw [index, if_pos rfl]
    exact (h.chain b hb).congr fun i hi => by rw [index, if_neg fun he : i = n => hn (he ▸ hi)]
  · refine block_cons_iff.mpr ?_
    by_cases hk : nodeHasKey T m' k n = true
    · refine Or.inl ⟨hk, leading_of_none fun i hi => ?_⟩
      rw [nodeHasKey, value, if_pos rfl] at hk
      rw [hkey i hi]
      exact fun hik => absent i hi (T.equiv.trans hik (T.equiv.symm hk))
    · exact Or.inr ⟨hk, (h.block b hb k).congr fun i hi => hkey i hi k⟩

/-- `n` goes behind a node with its key. -/
theorem behind {f : Nat} {xs ys : List Nat} (hf : ch b = xs ++ f :: ys)
    (hk : nodeHasKey T m (T.extractKey v) f = true)
    (factor : m'.hashFactor = m.hashFactor)
    (index : ∀ i, m'.hashIndex i =
      if i = f then n else if i = n then m.hashIndex f else m.hashIndex i) :
    Buckets T N (n :: us) (Function.update ch b (xs ++ f :: n :: ys)) m' := by
  have hn : n ∉ ch b := fun hm => fresh ((h.members b hb n).mp hm).1
  have hnf : n ≠ f := fun he => hn (by simp [hf, he])
  have hd := h.distinct b hb
  rw [hf] at hd hn
  obtain ⟨hfx, hfy⟩ : f ∉ xs ∧ f ∉ ys := by
    obtain ⟨-, hr, hdis⟩ := List.nodup_append.mp hd
    exact ⟨fun hm => hdis f hm f List.mem_cons_self rfl, (List.nodup_cons.mp hr).1⟩
  have hkey := fun i (hi : i ∈ ch b) k => h.nodeHasKey_old hb fresh value hi k
  have hsame : ∀ i, i ≠ f → i ≠ n → m'.hashIndex i = m.hashIndex i := fun i hif hin => by
    rw [index, if_neg hif, if_neg hin]
  refine h.enter hb hv fresh value ?_ ?_ (fun k => ?_) (fun i _ => by rw [factor])
    fun i hi hib => hsame i (fun he => hib (by simp [hf, he])) hi
  · rw [hf]
    exact ((List.Perm.swap n f ys).append_left xs).trans List.perm_middle
  · have hc := h.chain b hb
    rw [hf, Chain.append_iff] at hc
    obtain ⟨q, hx, rfl, hy⟩ := hc
    rw [factor]
    refine Chain.append_iff.mpr ⟨q, hx.congr fun i hi => ?_, rfl, ?_, ?_⟩
    · exact hsame i (fun he => hfx (he ▸ hi)) fun he => hn (by simp [← he, hi])
    · rw [index, if_pos rfl]
    · rw [index, if_neg hnf, if_pos rfl]
      refine hy.congr fun i hi => ?_
      exact hsame i (fun he => hfy (he ▸ hi)) fun he => hn (by simp [← he, hi])
  · refine Block.insert_after ?_ ?_
    · rw [← hf]
      exact (h.block b hb k).congr fun i hi => hkey i hi k
    · rw [hkey f (by simp [hf]), nodeHasKey, nodeHasKey, value, if_pos rfl]
      exact equalKey_congr hk

end Insert

/-- `n` leaves its chain: the link before it leads past it. -/
theorem unlink (h : Buckets T N us ch m) (hb : b < N) {xs ys : List Nat}
    (hn : ch b = xs ++ n :: ys) (hu : ∀ i, i ∈ us' ↔ i ∈ us ∧ i ≠ n)
    (factor : ∀ i, m'.hashFactor i = if i = b ∧ xs = [] then m.hashIndex n else m.hashFactor i)
    (index : ∀ i, i ≠ n →
      m'.hashIndex i = if xs.getLast? = some i then m.hashIndex n else m.hashIndex i)
    (value : m'.value = m.value) :
    Buckets T N us' (Function.update ch b (xs ++ ys)) m' := by
  have hd := h.distinct b hb
  rw [hn] at hd
  have hnd : n ∉ xs ++ ys := fun hm =>
    (List.nodup_cons.mp (List.perm_middle.nodup_iff.mp hd)).1 hm
  have hsub : (xs ++ ys).Sublist (ch b) := by
    rw [hn]
    exact List.Sublist.append_left (List.sublist_cons_self n ys) xs
  have hkey : ∀ k i, nodeHasKey T m' k i = nodeHasKey T m k i := fun k i => by
    rw [nodeHasKey, nodeHasKey, value]
  refine ⟨fun b' hb' => ?_, fun b' hb' => ?_, fun b' hb' i => ?_, fun b' hb' k => ?_⟩
  all_goals by_cases hbb : b' = b
  · subst hbb
    rw [Function.update_self]
    have hc := h.chain b' hb'
    rw [hn] at hc
    refine hc.remove hd ?_ fun i hi => index i fun he => hnd (he ▸ hi)
    rw [factor]
    simp
  · rw [Function.update_of_ne hbb, factor, if_neg fun he => hbb he.1]
    refine (h.chain b' hb').congr fun i hi => ?_
    have hib : i ∉ ch b := fun hib => hbb (h.disjoint hb hb' hib hi)
    have hin : i ≠ n := fun he => hib (by simp [hn, he])
    have hil : xs.getLast? ≠ some i := fun he => hib (by
      rw [hn]
      exact List.mem_append_left _ (List.mem_of_getLast? he))
    rw [index i hin, if_neg hil]
  · subst hbb
    rw [Function.update_self]
    exact (h.distinct b' hb').sublist hsub
  · rw [Function.update_of_ne hbb]
    exact h.distinct b' hb'
  · subst hbb
    rw [Function.update_self, value, hu]
    have hm := h.members b' hb' i
    rw [hn] at hm
    by_cases hi : i = n
    · subst hi
      simp [hnd]
    · simp only [List.mem_append, List.mem_cons, hi, false_or] at hm ⊢
      simp [hm, hi]
  · rw [Function.update_of_ne hbb, value, hu, h.members b' hb']
    have hmn : bucketOf T N (m.value n) = b := ((h.members b hb n).mp (by simp [hn])).2
    constructor
    · rintro ⟨hi, rfl⟩
      exact ⟨⟨hi, fun he => hbb (he ▸ hmn)⟩, rfl⟩
    · rintro ⟨⟨hi, -⟩, he⟩
      exact ⟨hi, he⟩
  · subst hbb
    rw [Function.update_self]
    exact ((h.block b' hb' k).sublist hsub).congr fun i _ => hkey k i
  · rw [Function.update_of_ne hbb]
    exact (h.block b' hb' k).congr fun i _ => hkey k i

end Buckets

end Buckets

end Jump.MemPool.LruHash
