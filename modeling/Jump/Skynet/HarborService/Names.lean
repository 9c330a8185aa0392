import Jump.Skynet.HarborService.Runs
import Mathlib.Data.List.Pairwise

/-! # Messages to global names

Where the messages that are sent to a name leave the service, and in which order. A message is
known by its number, its place in the run.
-/

namespace Jump.Skynet.HarborService

open Jump.Core
open Jump.Skynet.HarborLink

/-! ## What was sent, and to whom -/

def toName (name : Name) : Input → Bool
  | .message _ _ _ other 0 _ => Same name other
  | _ => false

/-- The message with the number is sent to the name. -/
def sentTo (name : Name) (inputs : List Input) (k : Nat) : Bool := inputs[k]?.any (toName name)

/-- The handle that an `N` command gives the name. -/
def gives (name : Name) : Input → Option Nat
  | .command msg source =>
    match nameOf msg with
    | some other => if Same name other then some source else none
    | none => none
  | _ => none

/-- The handle of the name after the inputs; 0 if it has none. -/
def lastHandle (name : Name) (inputs : List Input) : Nat :=
  inputs.foldl (fun handle i => (gives name i).getD handle) 0

/-- The name stands for the handle as far as the message is concerned: it has this handle when
the message is sent, or gets it first thereafter. -/
def Bound (name : Name) (inputs : List Input) (k handle : Nat) : Prop :=
  (handle ≠ 0 ∧ lastHandle name (inputs.take k) = handle) ∨
    (lastHandle name (inputs.take k) = 0 ∧ (inputs.drop k).findSome? (gives name) = some handle)

/-- The name has no handle when the message is sent, and none thereafter. -/
def Unbound (name : Name) (inputs : List Input) (k : Nat) : Prop :=
  lastHandle name (inputs.take k) = 0 ∧ (inputs.drop k).findSome? (gives name) = none

def SentAs (inputs : List Input) (k source type : Nat) (session : Int) (bytes : List UInt8) :
    Prop :=
  ∃ name handle, inputs[k]? = some (.message source type session name handle bytes)

/-- The message as it was sent, with the cookie for the handle. -/
def PackedFor (inputs : List Input) (handle : Nat) (m : HarborMsg) : Prop :=
  ∃ source type session bytes, SentAs inputs m.buffer.number source type session bytes ∧
    m = packed source handle type session ⟨m.buffer.number, bytes⟩

def UnpackedFor (inputs : List Input) (m : HarborMsg) : Prop :=
  ∃ source type session bytes, SentAs inputs m.buffer.number source type session bytes ∧
    m = unpacked source type session ⟨m.buffer.number, bytes⟩

/-! ## What leaves -/

/-- The number of the message that leaves. -/
def leaves : Effect → Option Nat
  | .sendRemote _ m => some m.buffer.number
  | .send _ _ _ _ (.buffer b) => some b.number
  | _ => none

def left (es : List Effect) : List Nat := es.filterMap leaves

def numbers (ms : List HarborMsg) : List Nat := ms.map fun m => m.buffer.number

/-- A message to the name leaves on the link of its handle's harbor, under the handle; or goes to
the handle itself, if that is one of this node. -/
def Destined (name : Name) (inputs : List Input) (h : Service) : Effect → Prop
  | .sendRemote fd m => ∃ handle, Bound name inputs m.buffer.number handle ∧
      handle >>> HANDLE_REMOTE_SHIFT ≠ h.id ∧ fd ≠ 0 ∧
      (h.s (handle >>> HANDLE_REMOTE_SHIFT)).fd = fd ∧ PackedFor inputs handle m
  | .send source handle type session (.buffer b) => Bound name inputs b.number handle ∧
      handle >>> HANDLE_REMOTE_SHIFT = h.id ∧ ∃ type', type = type' ||| PTYPE_TAG_DONTCOPY ∧
      SentAs inputs b.number source type' session b.bytes
  | _ => True

/-- A message that has not left: it waits for the handle of the name, or for the link to the
harbor of that handle, which is not set up yet. -/
def Held (name : Name) (inputs : List Input) (h : Service) (k : Nat) : Prop :=
  (Unbound name inputs k ∧ k ∈ numbers (h.waiting name)) ∨
    ∃ handle, Bound name inputs k handle ∧
      ((h.s (handle >>> HANDLE_REMOTE_SHIFT)).fd = 0 ∨
        (h.s (handle >>> HANDLE_REMOTE_SHIFT)).status = .handshake) ∧
      k ∈ numbers (h.pending (handle >>> HANDLE_REMOTE_SHIFT))

/-- What becomes of the messages that are sent to the name. -/
structure Routed (name : Name) (inputs : List Input) (es : List Effect) (h : Service) : Prop where
  destined : ∀ e ∈ es, ∀ k, leaves e = some k → sentTo name inputs k → Destined name inputs h e
  order : ((left es).filter (sentTo name inputs)).Pairwise (· < ·)
  accounted : ∀ k, sentTo name inputs k → k ∈ left es ∨ Held name inputs h k ∨
    ∃ handle, Bound name inputs k handle ∧
      (h.s (handle >>> HANDLE_REMOTE_SHIFT)).status = .down

/-- A name that messages wait for gets a handle of another node whose link has a descriptor, and
no name changes the harbor while messages to it wait for the link. -/
def Orderly (past : List Input) (h : Service) (i : Input) (_ : Service) (_ : List Effect) : Prop :=
  ∀ msg source name, i = .command msg source → nameOf msg = some name →
    (h.waiting name ≠ [] → source >>> HANDLE_REMOTE_SHIFT ≠ h.id ∧
      (h.s (source >>> HANDLE_REMOTE_SHIFT)).fd ≠ 0) ∧
    ((∃ k ∈ numbers (h.pending (h.value name >>> HANDLE_REMOTE_SHIFT)), sentTo name past k) →
      source >>> HANDLE_REMOTE_SHIFT = h.value name >>> HANDLE_REMOTE_SHIFT)

/-! ## One more input -/

section

variable {name other : Name} {past : List Input} {i : Input} {k handle : Nat}

theorem sentTo_lt (h : sentTo name past k) : k < past.length := by
  by_contra hge
  unfold sentTo at h
  rw [List.getElem?_eq_none (Nat.le_of_not_lt hge)] at h
  exact nomatch h

theorem getElem?_snoc_lt (hk : k < past.length) : (past ++ [i])[k]? = past[k]? :=
  List.getElem?_append_left hk

theorem sentTo_snoc (hk : k < past.length) : sentTo name (past ++ [i]) k = sentTo name past k := by
  unfold sentTo
  rw [getElem?_snoc_lt hk]

theorem sentTo_last : sentTo name (past ++ [i]) past.length = toName name i := by
  unfold sentTo
  rw [List.getElem?_concat_length]
  rfl

theorem sentTo_cases (h : sentTo name (past ++ [i]) k) :
    (k < past.length ∧ sentTo name past k) ∨ (k = past.length ∧ toName name i) := by
  have hlt := sentTo_lt h
  rw [List.length_append, List.length_singleton] at hlt
  by_cases hk : k < past.length
  · rw [sentTo_snoc hk] at h
    exact .inl ⟨hk, h⟩
  · obtain rfl : k = past.length := by omega
    rw [sentTo_last] at h
    exact .inr ⟨rfl, h⟩

theorem lastHandle_snoc : lastHandle name (past ++ [i]) =
    (gives name i).getD (lastHandle name past) := by
  unfold lastHandle
  rw [List.foldl_concat]

theorem Bound.snoc (h : Bound name past k handle) (hk : k < past.length) (i : Input) :
    Bound name (past ++ [i]) k handle := by
  unfold Bound at h ⊢
  rw [List.take_append_of_le_length (Nat.le_of_lt hk), List.drop_append_of_le_length
    (Nat.le_of_lt hk),
    List.findSome?_append]
  exact h.imp id fun ⟨hzero, hfound⟩ => ⟨hzero, by rw [hfound]; rfl⟩

theorem Unbound.snoc (h : Unbound name past k) (hk : k < past.length) (hi : gives name i = none) :
    Unbound name (past ++ [i]) k := by
  unfold Unbound at h ⊢
  rw [List.take_append_of_le_length (Nat.le_of_lt hk), List.drop_append_of_le_length
    (Nat.le_of_lt hk),
    List.findSome?_append, h.2]
  exact ⟨h.1, by simp only [List.findSome?_cons, hi, List.findSome?_nil, Option.or_none]⟩

/-- The name gets the handle that its messages wait for. -/
theorem Unbound.bound (h : Unbound name past k) (hk : k < past.length)
    (hi : gives name i = some handle) : Bound name (past ++ [i]) k handle := by
  refine .inr ?_
  rw [List.take_append_of_le_length (Nat.le_of_lt hk), List.drop_append_of_le_length
    (Nat.le_of_lt hk),
    List.findSome?_append, h.2]
  exact ⟨h.1, by simp only [List.findSome?_cons, hi, Option.none_or]⟩

theorem bound_last (hvalue : lastHandle name past ≠ 0) (i : Input) :
    Bound name (past ++ [i]) past.length (lastHandle name past) := by
  refine .inl ⟨hvalue, ?_⟩
  rw [List.take_left']
  rfl

theorem unbound_last (hvalue : lastHandle name past = 0) (hi : gives name i = none) :
    Unbound name (past ++ [i]) past.length := by
  refine ⟨?_, ?_⟩
  · rw [List.take_left' rfl]
    exact hvalue
  · rw [List.drop_left' rfl]
    simp only [List.findSome?_cons, hi, List.findSome?_nil]

theorem SentAs.snoc {source type : Nat} {session : Int} {bytes : List UInt8}
    (h : SentAs past k source type session bytes) (i : Input) :
    SentAs (past ++ [i]) k source type session bytes := by
  obtain ⟨name, handle, hk⟩ := h
  have hlt : k < past.length := (List.getElem?_eq_some_iff.mp hk).1
  exact ⟨name, handle, (getElem?_snoc_lt hlt).trans hk⟩

theorem PackedFor.snoc {m : HarborMsg} (h : PackedFor past handle m) (i : Input) :
    PackedFor (past ++ [i]) handle m := by
  obtain ⟨source, type, session, bytes, hsent, heq⟩ := h
  exact ⟨source, type, session, bytes, hsent.snoc i, heq⟩

theorem UnpackedFor.snoc {m : HarborMsg} (h : UnpackedFor past m) (i : Input) :
    UnpackedFor (past ++ [i]) m := by
  obtain ⟨source, type, session, bytes, hsent, heq⟩ := h
  exact ⟨source, type, session, bytes, hsent.snoc i, heq⟩

theorem UnpackedFor.patch {m : HarborMsg} (h : UnpackedFor past m) (handle : Nat) :
    PackedFor past handle (patch handle m) := by
  obtain ⟨source, type, session, bytes, hsent, heq⟩ := h
  refine ⟨source, type, session, bytes, hsent, ?_⟩
  rw [heq]
  exact patch_unpacked ..

theorem sentTo_same (h : Same name other) (k : Nat) : sentTo name past k = sentTo other past k := by
  have hto : toName name = toName other := by
    funext i
    cases i with
    | message source type session third handle bytes =>
        cases handle with
        | zero =>
            show decide (Same name third) = decide (Same other third)
            exact decide_eq_decide.mpr ⟨fun h' => h.symm.trans h', fun h' => h.trans h'⟩
        | succ => rfl
    | _ => rfl
  unfold sentTo
  rw [hto]

end

/-! ## The numbers of a name -/

theorem left_append (es es' : List Effect) : left (es ++ es') = left es ++ left es' :=
  List.filterMap_append

theorem left_quiet {es : List Effect} (hquiet : ∀ e ∈ es, Quiet e) : left es = [] := by
  refine List.filterMap_eq_nil_iff.mpr fun e he => ?_
  have hq := hquiet e he
  cases e with
  | send source destination type session data =>
      cases data with
      | buffer b => exact absurd rfl (hq b)
      | _ => rfl
  | sendRemote => exact hq.elim
  | _ => rfl

theorem left_release (queue : Option HarborMsgQueue) : left (releaseQueue queue) = [] := by
  rw [releaseQueue_eq]
  refine List.filterMap_eq_nil_iff.mpr fun e he => ?_
  obtain ⟨m, -, rfl⟩ := List.mem_map.mp he
  rfl

theorem left_sendQueue (fd : Int) (ms : List HarborMsg) : left (sendQueue fd ms) = numbers ms := by
  induction ms with
  | nil => rfl
  | cons m ms ih =>
      have hcons : sendQueue fd (m :: ms) =
        [.sendRemote fd m, .free m.buffer] ++ sendQueue fd ms := List.flatMap_cons
      rw [hcons, left_append, ih]
      rfl

theorem numbers_append (ms ms' : List HarborMsg) :
    numbers (ms ++ ms') = numbers ms ++ numbers ms' :=
  List.map_append

theorem numbers_patch (handle : Nat) (ms : List HarborMsg) :
    numbers (ms.map (patch handle)) = numbers ms := by
  unfold numbers
  rw [List.map_map]
  rfl

/-- The numbers in the service in the order in which they leave it: those that have left, those
that wait for the link of the name's harbor and those that wait for the name. -/
def flow (name : Name) (es : List Effect) (h : Service) : List Nat :=
  left es ++ numbers (h.pending (h.value name >>> HANDLE_REMOTE_SHIFT)) ++ numbers (h.waiting name)

/-- What is known of one name. -/
structure Tracks (name : Name) (past : List Input) (es : List Effect) (h : Service) : Prop where
  value : h.value name = lastHandle name past
  waiting : ∀ m ∈ h.waiting name, m.buffer.number < past.length ∧
    sentTo name past m.buffer.number ∧ Unbound name past m.buffer.number ∧ UnpackedFor past m
  pending : ∀ id, ∀ m ∈ h.pending id, sentTo name past m.buffer.number →
    id = h.value name >>> HANDLE_REMOTE_SHIFT ∧ ∃ handle, Bound name past m.buffer.number handle ∧
      handle >>> HANDLE_REMOTE_SHIFT = id ∧ PackedFor past handle m
  destined : ∀ e ∈ es, ∀ k, leaves e = some k → sentTo name past k → Destined name past h e
  order : ((flow name es h).filter (sentTo name past)).Pairwise (· < ·)
  accounted : ∀ k, sentTo name past k → k ∈ flow name es h ∨
    ∃ handle, Bound name past k handle ∧ (h.s (handle >>> HANDLE_REMOTE_SHIFT)).status = .down

/-- What is known of all names. -/
structure Tracked (past : List Input) (es : List Effect) (h : Service) : Prop where
  inv : Inv h
  own : h.pending h.id = []
  left_lt : ∀ k ∈ left es, k < past.length
  pending_lt : ∀ id, ∀ k ∈ numbers (h.pending id), k < past.length
  names : ∀ name, Tracks name past es h

section

variable {name : Name} {past : List Input} {es es' : List Effect} {h h' : Service} {i : Input}

theorem mem_numbers {ms : List HarborMsg} {k : Nat} :
    k ∈ numbers ms ↔ ∃ m ∈ ms, m.buffer.number = k := List.mem_map

/-- The numbers of the name among those that wait for another harbor: none. -/
theorem Tracks.filter_pending (ht : Tracks name past es h) {id : Nat}
    (hid : id ≠ h.value name >>> HANDLE_REMOTE_SHIFT) :
    (numbers (h.pending id)).filter (sentTo name past) = [] := by
  refine List.filter_eq_nil_iff.mpr fun k hk hsent => ?_
  obtain ⟨m, hm, rfl⟩ := mem_numbers.mp hk
  exact hid (ht.pending id m hm hsent).1

theorem Tracked.flow_lt (ht : Tracked past es h) (name : Name) :
    ∀ k ∈ flow name es h, k < past.length := by
  intro k hk
  rcases List.mem_append.mp hk with hk | hk
  · rcases List.mem_append.mp hk with hk | hk
    · exact ht.left_lt k hk
    · exact ht.pending_lt _ k hk
  · obtain ⟨m, hm, rfl⟩ := mem_numbers.mp hk
    exact ((ht.names name).waiting m hm).1

theorem filter_snoc {ks : List Nat} (hlt : ∀ k ∈ ks, k < past.length) (i : Input) :
    ks.filter (sentTo name (past ++ [i])) = ks.filter (sentTo name past) :=
  List.filter_congr fun k hk => sentTo_snoc (hlt k hk)

/-- The effects that were there are still as they should be. -/
theorem Destined.snoc {e : Effect} {k : Nat} (hd : Destined name past h e)
    (he : leaves e = some k) (hk : k < past.length) (hid : h'.id = h.id)
    (hfd : ∀ id, (h.s id).fd ≠ 0 → (h'.s id).fd = (h.s id).fd) (i : Input) :
    Destined name (past ++ [i]) h' e := by
  cases e with
  | sendRemote fd m =>
      obtain rfl := Option.some.inj he
      obtain ⟨handle, hbound, hne, hfd0, hfdeq, hpacked⟩ := hd
      refine ⟨handle, hbound.snoc hk i, hid ▸ hne, hfd0, ?_, hpacked.snoc i⟩
      rw [hfd _ (hfdeq ▸ hfd0), hfdeq]
  | send source handle type session data =>
      cases data with
      | buffer b =>
          obtain rfl := Option.some.inj he
          obtain ⟨hbound, hown, type', htype, hsent⟩ := hd
          exact ⟨hbound.snoc hk i, hown.trans hid.symm, type', htype, hsent.snoc i⟩
      | _ => trivial
  | _ => trivial

/-- The order is kept by a step that adds the new number at the end, if any. -/
theorem Tracked.order_of (ht : Tracked past es h)
    (hflow : ((flow name (es ++ es') h').filter (sentTo name (past ++ [i]))).Sublist
      ((flow name es h).filter (sentTo name past) ++ [past.length])) :
    ((flow name (es ++ es') h').filter (sentTo name (past ++ [i]))).Pairwise (· < ·) := by
  refine List.Pairwise.sublist hflow (List.pairwise_append.mpr
    ⟨(ht.names name).order, List.pairwise_singleton _ _, fun a ha b hb => ?_⟩)
  obtain rfl := List.mem_singleton.mp hb
  exact ht.flow_lt name a (List.mem_filter.mp ha).1

/-- What a step leaves alone. -/
structure Stays (h h' : Service) : Prop where
  id : h'.id = h.id
  fd : ∀ id, (h.s id).fd ≠ 0 → (h'.s id).fd = (h.s id).fd
  down : ∀ id, (h.s id).status = .down → (h'.s id).status = .down

theorem Step.stays {k : Nat} (hstep : Step k h i h' es) (inv : Inv h) : Stays h h' where
  id := hstep.id_stays
  fd _ hfd := hstep.fd_stays hfd
  down id hdown := by
    rw [hstep.down_stays inv hdown]
    exact hdown

/-- A step that is not about the name. -/
theorem Tracks.frame (ht : Tracked past es h) (hstays : Stays h h')
    (hto : toName name i = false) (hgives : gives name i = none)
    (hvalue : h'.value name = h.value name) (hwaiting : h'.waiting name = h.waiting name)
    (hpending : ∀ id, ∀ m ∈ h'.pending id, sentTo name (past ++ [i]) m.buffer.number →
      m ∈ h.pending id)
    (hnew : ∀ e ∈ es', ∀ k, leaves e = some k → sentTo name (past ++ [i]) k →
      Destined name (past ++ [i]) h' e)
    (horder : ((flow name (es ++ es') h').filter (sentTo name (past ++ [i]))).Sublist
      ((flow name es h).filter (sentTo name past)))
    (hkept : ∀ k ∈ flow name es h, sentTo name past k → k ∈ flow name (es ++ es') h' ∨
      ∃ handle, Bound name past k handle ∧
        (h'.s (handle >>> HANDLE_REMOTE_SHIFT)).status = .down) :
    Tracks name (past ++ [i]) (es ++ es') h' where
  value := by
    rw [hvalue, lastHandle_snoc, hgives]
    exact (ht.names name).value
  waiting m hm := by
    rw [hwaiting] at hm
    obtain ⟨hlt, hsent, hunbound, hunpacked⟩ := (ht.names name).waiting m hm
    refine ⟨?_, ?_, hunbound.snoc hlt hgives, hunpacked.snoc i⟩
    · rw [List.length_append]
      exact Nat.lt_add_right _ hlt
    · rw [sentTo_snoc hlt]
      exact hsent
  pending id m hm hsent := by
    have hold := hpending id m hm hsent
    have hlt := ht.pending_lt id _ (mem_numbers.mpr ⟨m, hold, rfl⟩)
    rw [sentTo_snoc hlt] at hsent
    obtain ⟨hid, handle, hbound, hharbor, hpacked⟩ := (ht.names name).pending id m hold hsent
    exact ⟨hvalue ▸ hid, handle, hbound.snoc hlt i, hharbor, hpacked.snoc i⟩
  destined e he k hk hsent := by
    rcases List.mem_append.mp he with he | he
    · have hlt := ht.left_lt k (List.mem_filterMap.mpr ⟨e, he, hk⟩)
      rw [sentTo_snoc hlt] at hsent
      exact ((ht.names name).destined e he k hk hsent).snoc hk hlt hstays.id hstays.fd i
    · exact hnew e he k hk hsent
  order := ht.order_of (horder.trans (List.sublist_append_left _ _))
  accounted k hsent := by
    rcases sentTo_cases hsent with ⟨hlt, hsent⟩ | ⟨-, htoName⟩
    · rcases (ht.names name).accounted k hsent with hflow | ⟨handle, hbound, hdown⟩
      · exact (hkept k hflow hsent).imp id fun ⟨handle, hbound, hdown⟩ =>
          ⟨handle, hbound.snoc hlt i, hdown⟩
      · exact .inr ⟨handle, hbound.snoc hlt i, hstays.down _ hdown⟩
    · rw [hto] at htoName
      exact nomatch htoName

/-- A step that sends nothing and takes nothing, save that a link that fails loses its queue. -/
theorem Tracks.still (ht : Tracked past es h) (hstays : Stays h h')
    (hto : toName name i = false) (hgives : gives name i = none)
    (hvalue : h'.value name = h.value name) (hwaiting : h'.waiting name = h.waiting name)
    (hpending : ∀ id, h'.pending id = h.pending id ∨
      (h'.pending id = [] ∧ (h'.s id).status = .down))
    (hleft : left es' = []) : Tracks name (past ++ [i]) (es ++ es') h' := by
  have hnone : ∀ e ∈ es', ∀ k, leaves e ≠ some k := by
    intro e he k hk
    have hmem : k ∈ left es' := List.mem_filterMap.mpr ⟨e, he, hk⟩
    rw [hleft] at hmem
    exact absurd hmem List.not_mem_nil
  have hflow : flow name (es ++ es') h' = left es ++
      numbers (h'.pending (h.value name >>> HANDLE_REMOTE_SHIFT)) ++ numbers (h.waiting name) := by
    unfold flow
    rw [left_append, hleft, List.append_nil, hvalue, hwaiting]
  refine Tracks.frame ht hstays hto hgives hvalue hwaiting (fun id m hm _ => ?_)
    (fun e he k hk => absurd hk (hnone e he k)) ?_ fun k hk hsent => ?_
  · rcases hpending id with hsame | ⟨hnil, -⟩
    · exact hsame ▸ hm
    · rw [hnil] at hm
      exact absurd hm List.not_mem_nil
  · have hsub : (flow name (es ++ es') h').Sublist (flow name es h) := by
      rw [hflow]
      refine List.Sublist.append (List.Sublist.append (List.Sublist.refl _) ?_)
        (List.Sublist.refl _)
      rcases hpending (h.value name >>> HANDLE_REMOTE_SHIFT) with hsame | ⟨hnil, -⟩
      · rw [hsame]
      · rw [hnil]
        exact List.nil_sublist _
    rw [filter_snoc (fun k hk => ht.flow_lt name k (hsub.subset hk))]
    exact hsub.filter _
  · rw [hflow]
    rcases hpending (h.value name >>> HANDLE_REMOTE_SHIFT) with hsame | ⟨hnil, hdown⟩
    · rw [hsame]
      exact .inl hk
    · rcases List.mem_append.mp hk with hk | hk
      · rcases List.mem_append.mp hk with hk | hk
        · exact .inl (List.mem_append_left _ (List.mem_append_left _ hk))
        · obtain ⟨m, hm, rfl⟩ := mem_numbers.mp hk
          obtain ⟨-, handle, hbound, hharbor, -⟩ := (ht.names name).pending _ m hm hsent
          exact .inr ⟨handle, hbound, hharbor ▸ hdown⟩
      · exact .inl (List.mem_append_right _ hk)

/-- The queue of a link is written to it. -/
theorem Tracks.dispatched (ht : Tracked past es h) (hstays : Stays h h')
    (hto : toName name i = false) (hgives : gives name i = none)
    (hvalue : h'.value name = h.value name) (hwaiting : h'.waiting name = h.waiting name)
    {id : Nat} {fd : Int} (hfd : fd ≠ 0) (hfd' : (h'.s id).fd = fd)
    (hempty : h'.pending id = []) (hpending : ∀ j, j ≠ id → h'.pending j = h.pending j)
    (hleft : left es' = numbers (h.pending id))
    (heffects : ∀ e ∈ es', ∀ k, leaves e = some k → ∃ m ∈ h.pending id, e = .sendRemote fd m) :
    Tracks name (past ++ [i]) (es ++ es') h' := by
  refine Tracks.frame ht hstays hto hgives hvalue hwaiting (fun j m hm _ => ?_)
    (fun e he k hk hsent => ?_) ?_ fun k hk hsent => .inl ?_
  · by_cases hj : j = id
    · rw [hj, hempty] at hm
      exact absurd hm List.not_mem_nil
    · exact hpending j hj ▸ hm
  · obtain ⟨m, hm, rfl⟩ := heffects e he k hk
    obtain rfl := Option.some.inj hk
    have hlt := ht.pending_lt id _ (mem_numbers.mpr ⟨m, hm, rfl⟩)
    rw [sentTo_snoc hlt] at hsent
    obtain ⟨-, handle, hbound, hharbor, hpacked⟩ := (ht.names name).pending id m hm hsent
    refine ⟨handle, hbound.snoc hlt i, ?_, hfd, hharbor ▸ hfd', hpacked.snoc i⟩
    rintro hown
    rw [← hharbor, hown, hstays.id, ht.own] at hm
    exact absurd hm List.not_mem_nil
  · have hlt : ∀ k ∈ numbers (h.pending id), k < past.length := ht.pending_lt id
    have hflow' := ht.flow_lt name
    unfold flow at hflow' ⊢
    rw [left_append, hleft, hvalue, hwaiting]
    by_cases hid : id = h.value name >>> HANDLE_REMOTE_SHIFT
    · rw [← hid, hempty]
      rw [← hid] at hflow'
      show (List.filter _ (left es ++ numbers (h.pending id) ++ [] ++ _)).Sublist _
      rw [List.append_nil, filter_snoc hflow']
    · rw [hpending _ fun heq => hid heq.symm]
      rw [List.append_assoc, List.append_assoc, List.filter_append, List.filter_append,
        filter_snoc ht.left_lt, filter_snoc hlt, (ht.names name).filter_pending hid,
        List.nil_append, filter_snoc fun k hk => hflow' k ?_, ← List.filter_append,
        ← List.append_assoc]
      rw [List.append_assoc]
      exact List.mem_append_right _ hk
  · unfold flow at hk ⊢
    rw [left_append, hleft, hvalue, hwaiting]
    by_cases hid : id = h.value name >>> HANDLE_REMOTE_SHIFT
    · rw [← hid] at hk ⊢
      rw [hempty]
      show k ∈ left es ++ numbers (h.pending id) ++ [] ++ _
      rw [List.append_nil]
      exact hk
    · rw [hpending _ fun heq => hid heq.symm]
      simp only [List.mem_append] at hk ⊢
      exact hk.imp_left fun hk => hk.imp_left .inl

theorem sentTo_inj {other : Name} {k : Nat} (hsent : sentTo name past k)
    (hother : sentTo other past k) : Same name other := by
  unfold sentTo at hsent hother
  obtain ⟨i, hi, hto⟩ := (Option.any_eq_true _ _).mp hsent
  rw [hi] at hother
  have hto' : toName other i = true := hother
  unfold toName at hto hto'
  split at hto
  · exact (of_decide_eq_true hto).trans (of_decide_eq_true hto').symm
  · exact nomatch hto

/-- A message that goes elsewhere. -/
theorem Tracks.elsewhere (ht : Tracked past es h) (hstays : Stays h h')
    (hto : toName name i = false) (hgives : gives name i = none)
    (hvalue : h'.value name = h.value name) (hwaiting : h'.waiting name = h.waiting name)
    (hpending : ∀ id, ∃ more, h'.pending id = h.pending id ++ more ∧
      ∀ m ∈ more, sentTo name (past ++ [i]) m.buffer.number = false)
    (hleft : ∀ k ∈ left es', sentTo name (past ++ [i]) k = false) :
    Tracks name (past ++ [i]) (es ++ es') h' := by
  refine Tracks.frame ht hstays hto hgives hvalue hwaiting (fun id m hm hsent => ?_)
    (fun e he k hk hsent => ?_) ?_ fun k hk _ => .inl ?_
  · obtain ⟨more, heq, hmore⟩ := hpending id
    rw [heq] at hm
    refine (List.mem_append.mp hm).resolve_right fun hm => ?_
    rw [hmore m hm] at hsent
    exact nomatch hsent
  · rw [hleft k (List.mem_filterMap.mpr ⟨e, he, hk⟩)] at hsent
    exact nomatch hsent
  · obtain ⟨more, heq, hmore⟩ := hpending (h.value name >>> HANDLE_REMOTE_SHIFT)
    have hflow' := ht.flow_lt name
    have hnone : (left es').filter (sentTo name (past ++ [i])) = [] :=
      List.filter_eq_nil_iff.mpr fun k hk => by rw [hleft k hk]; exact nofun
    have hnone' : (numbers more).filter (sentTo name (past ++ [i])) = [] := by
      refine List.filter_eq_nil_iff.mpr fun k hk => ?_
      obtain ⟨m, hm, rfl⟩ := mem_numbers.mp hk
      rw [hmore m hm]
      exact nofun
    rw [← filter_snoc hflow' i]
    unfold flow
    rw [left_append, hvalue, hwaiting, heq, numbers_append]
    simp only [List.filter_append, hnone, hnone', List.append_nil]
    exact List.Sublist.refl _
  · obtain ⟨more, heq, -⟩ := hpending (h.value name >>> HANDLE_REMOTE_SHIFT)
    unfold flow at hk ⊢
    rw [left_append, hvalue, hwaiting, heq, numbers_append]
    simp only [List.mem_append] at hk ⊢
    exact hk.imp_left fun hk => hk.imp .inl .inl

/-- A step that is about the name: the flow of its numbers goes on, with the new one at its end
if it is a message. -/
theorem Tracks.goes_on (ht : Tracked past es h) (hstays : Stays h h')
    (hvalue : h'.value name = lastHandle name (past ++ [i]))
    (hwaiting : ∀ m ∈ h'.waiting name, m.buffer.number < (past ++ [i]).length ∧
      sentTo name (past ++ [i]) m.buffer.number ∧ Unbound name (past ++ [i]) m.buffer.number ∧
      UnpackedFor (past ++ [i]) m)
    (hpending : ∀ id, ∀ m ∈ h'.pending id, sentTo name (past ++ [i]) m.buffer.number →
      id = h'.value name >>> HANDLE_REMOTE_SHIFT ∧
      ∃ handle, Bound name (past ++ [i]) m.buffer.number handle ∧
        handle >>> HANDLE_REMOTE_SHIFT = id ∧ PackedFor (past ++ [i]) handle m)
    (hnew : ∀ e ∈ es', ∀ k, leaves e = some k → sentTo name (past ++ [i]) k →
      Destined name (past ++ [i]) h' e)
    {new : List Nat} (hto : toName name i = true → new = [past.length])
    (hsub : new.Sublist [past.length])
    (hflow : (flow name (es ++ es') h').filter (sentTo name (past ++ [i])) =
      (flow name es h).filter (sentTo name past) ++ new) :
    Tracks name (past ++ [i]) (es ++ es') h' where
  value := hvalue
  waiting := hwaiting
  pending := hpending
  destined e he k hk hsent := by
    rcases List.mem_append.mp he with he | he
    · have hlt := ht.left_lt k (List.mem_filterMap.mpr ⟨e, he, hk⟩)
      rw [sentTo_snoc hlt] at hsent
      exact ((ht.names name).destined e he k hk hsent).snoc hk hlt hstays.id hstays.fd i
    · exact hnew e he k hk hsent
  order := ht.order_of (hflow ▸ List.Sublist.append (List.Sublist.refl _) hsub)
  accounted k hsent := by
    have hmem : ∀ k, k ∈ (flow name es h).filter (sentTo name past) ++ new →
        k ∈ flow name (es ++ es') h' := fun k hk => (List.mem_filter.mp (hflow ▸ hk)).1
    rcases sentTo_cases hsent with ⟨hlt, hsent⟩ | ⟨rfl, htoName⟩
    · rcases (ht.names name).accounted k hsent with hk | ⟨handle, hbound, hdown⟩
      · exact .inl (hmem k (List.mem_append_left _ (List.mem_filter.mpr ⟨hk, hsent⟩)))
      · exact .inr ⟨handle, hbound.snoc hlt i, hstays.down _ hdown⟩
    · refine .inl (hmem _ (List.mem_append_right _ ?_))
      rw [hto htoName]
      exact List.mem_singleton.mpr rfl

end

/-! ## A message to the name -/

section

variable {past : List Input} {es : List Effect} {h h' : Service} {source type : Nat}
  {session : Int} {name other : Name} {bytes : List UInt8}

theorem toName_message (handle : Nat) :
    toName name (.message source type session other handle bytes) =
    decide (handle = 0 ∧ Same name other) := by
  cases handle with
  | zero => exact decide_eq_decide.mpr (by rw [eq_self, true_and])
  | succ handle => exact (decide_eq_false fun hand => nomatch hand.1).symm

theorem gives_message (handle : Nat) :
    gives name (.message source type session other handle bytes) = none := rfl

theorem sentAs_last (handle : Nat) :
    SentAs (past ++ [.message source type session other handle bytes]) past.length source type
      session bytes := ⟨other, handle, List.getElem?_concat_length ..⟩

/-- The message waits for the handle of the name. -/
theorem Tracks.waits (ht : Tracked past es h) (hstays : Stays h h') (hname : Same name other)
    (hnone : h.value name = 0) (hvalue : h'.value name = h.value name)
    (hqueue : h'.queue = h.queue)
    (hwaiting : h'.waiting name =
      h.waiting name ++ [unpacked source type session ⟨past.length, bytes⟩])
    {es' : List Effect} (hleft : left es' = []) :
    Tracks name (past ++ [.message source type session other 0 bytes]) (es ++ es') h' := by
  have hlast : lastHandle name past = 0 := ((ht.names name).value).symm.trans hnone
  have hto : sentTo name (past ++ [.message source type session other 0 bytes]) past.length =
      true := by
    rw [sentTo_last, toName_message]
    exact decide_eq_true ⟨rfl, hname⟩
  have hpending : ∀ id, h'.pending id = h.pending id := by
    intro id
    unfold Service.pending
    rw [hqueue]
  refine Tracks.goes_on ht hstays ?_ ?_ ?_ ?_ (fun _ => show [past.length] = _ from rfl)
    (List.Sublist.refl _) ?_
  · rw [hvalue, lastHandle_snoc, gives_message]
    exact (ht.names name).value
  · intro m hm
    rw [hwaiting] at hm
    rw [List.length_append, List.length_singleton]
    rcases List.mem_append.mp hm with hm | hm
    · obtain ⟨hlt, hsent, hunbound, hunpacked⟩ := (ht.names name).waiting m hm
      exact ⟨Nat.lt_succ_of_lt hlt, sentTo_snoc hlt ▸ hsent, hunbound.snoc hlt rfl,
        hunpacked.snoc _⟩
    · obtain rfl := List.mem_singleton.mp hm
      exact ⟨Nat.lt_succ_self _, hto, unbound_last hlast rfl, _, _, _, _, sentAs_last 0, rfl⟩
  · intro id m hm hsent
    rw [hpending] at hm
    have hlt := ht.pending_lt id _ (mem_numbers.mpr ⟨m, hm, rfl⟩)
    rw [sentTo_snoc hlt] at hsent
    obtain ⟨hid, handle, hbound, hharbor, hpacked⟩ := (ht.names name).pending id m hm hsent
    exact ⟨hvalue ▸ hid, handle, hbound.snoc hlt _, hharbor, hpacked.snoc _⟩
  · intro e he k hk
    have hmem : k ∈ left es' := List.mem_filterMap.mpr ⟨e, he, hk⟩
    rw [hleft] at hmem
    exact absurd hmem List.not_mem_nil
  · have hflow' := ht.flow_lt name
    rw [← filter_snoc hflow']
    unfold flow
    rw [left_append, hleft, hvalue, hwaiting, hpending, numbers_append, List.append_nil,
      ← List.append_assoc, List.filter_append (_ ++ _)]
    congr 1
    show List.filter _ [past.length] = _
    rw [List.filter_cons_of_pos hto]
    rfl

/-- Of a name with a handle nothing waits for one. -/
theorem Inv.waiting_nil (inv : Inv h) (hvalue : h.value name ≠ 0) : h.waiting name = [] := by
  unfold Service.waiting
  rw [inv.named name hvalue]
  rfl

/-- The name has a handle, and the message waits for the link. -/
theorem Tracks.kept (ht : Tracked past es h) (hstays : Stays h h') (hname : Same name other)
    (hnone : h.value name ≠ 0) (hvalue : h'.value name = h.value name)
    (hwaiting : h'.waiting name = h.waiting name)
    (hpending : h'.pending (h.value name >>> HANDLE_REMOTE_SHIFT) =
      h.pending (h.value name >>> HANDLE_REMOTE_SHIFT) ++
        [packed source (h.value name) type session ⟨past.length, bytes⟩])
    (hothers : ∀ id, id ≠ h.value name >>> HANDLE_REMOTE_SHIFT → h'.pending id = h.pending id)
    {es' : List Effect} (hleft : left es' = []) :
    Tracks name (past ++ [.message source type session other 0 bytes]) (es ++ es') h' := by
  have hlast : h.value name = lastHandle name past := (ht.names name).value
  have hto : sentTo name (past ++ [.message source type session other 0 bytes]) past.length =
      true := by
    rw [sentTo_last, toName_message]
    exact decide_eq_true ⟨rfl, hname⟩
  have hnil := ht.inv.waiting_nil hnone
  refine Tracks.goes_on ht hstays ?_ ?_ ?_ ?_ (fun _ => show [past.length] = _ from rfl)
    (List.Sublist.refl _) ?_
  · rw [hvalue, lastHandle_snoc, gives_message]
    exact hlast
  · intro m hm
    rw [hwaiting, hnil] at hm
    exact absurd hm List.not_mem_nil
  · have hold : ∀ id, ∀ m ∈ h.pending id,
        sentTo name (past ++ [.message source type session other 0 bytes]) m.buffer.number →
        id = h'.value name >>> HANDLE_REMOTE_SHIFT ∧ ∃ handle, Bound name
          (past ++ [.message source type session other 0 bytes]) m.buffer.number handle ∧
          handle >>> HANDLE_REMOTE_SHIFT = id ∧ PackedFor
            (past ++ [.message source type session other 0 bytes]) handle m := by
      intro id m hm hsent
      have hlt := ht.pending_lt id _ (mem_numbers.mpr ⟨m, hm, rfl⟩)
      rw [sentTo_snoc hlt] at hsent
      obtain ⟨hid, handle, hbound, hharbor, hpacked⟩ := (ht.names name).pending id m hm hsent
      exact ⟨hvalue ▸ hid, handle, hbound.snoc hlt _, hharbor, hpacked.snoc _⟩
    intro id m hm hsent
    by_cases hid : id = h.value name >>> HANDLE_REMOTE_SHIFT
    · rw [hid, hpending] at hm
      rcases List.mem_append.mp hm with hm | hm
      · exact hid ▸ hold _ m hm hsent
      · obtain rfl := List.mem_singleton.mp hm
        refine ⟨hvalue ▸ hid, h.value name, hlast ▸ bound_last (hlast ▸ hnone) _, hid.symm, ?_⟩
        exact ⟨source, type, session, bytes, sentAs_last 0, rfl⟩
    · exact hold id m (hothers id hid ▸ hm) hsent
  · intro e he k hk
    have hmem : k ∈ left es' := List.mem_filterMap.mpr ⟨e, he, hk⟩
    rw [hleft] at hmem
    exact absurd hmem List.not_mem_nil
  · have hflow' := ht.flow_lt name
    rw [← filter_snoc hflow']
    unfold flow
    rw [left_append, hleft, hvalue, hwaiting, hpending, numbers_append, List.append_nil, hnil]
    show List.filter _ (left es ++ (_ ++ [past.length]) ++ []) = _
    rw [List.append_nil, ← List.append_assoc, List.filter_append (_ ++ _),
      List.filter_cons_of_pos hto]
    show _ = List.filter _ (_ ++ []) ++ _
    rw [List.append_nil]
    rfl

/-- The name has a handle, and the message leaves. -/
theorem Tracks.sent (ht : Tracked past es h) (hstays : Stays h h') (hname : Same name other)
    (hnone : h.value name ≠ 0) (hvalue : h'.value name = h.value name)
    (hwaiting : h'.waiting name = h.waiting name) (hpending : ∀ id, h'.pending id = h.pending id)
    (hnil : h.pending (h.value name >>> HANDLE_REMOTE_SHIFT) = []) {es' : List Effect}
    (hleft : left es' = [past.length])
    (hnew : ∀ e ∈ es', ∀ k, leaves e = some k →
      Destined name (past ++ [.message source type session other 0 bytes]) h' e) :
    Tracks name (past ++ [.message source type session other 0 bytes]) (es ++ es') h' := by
  have hto : sentTo name (past ++ [.message source type session other 0 bytes]) past.length =
      true := by
    rw [sentTo_last, toName_message]
    exact decide_eq_true ⟨rfl, hname⟩
  have hwait := ht.inv.waiting_nil hnone
  refine Tracks.goes_on ht hstays ?_ ?_ ?_ (fun e he k hk _ => hnew e he k hk)
    (fun _ => show [past.length] = _ from rfl) (List.Sublist.refl _) ?_
  · rw [hvalue, lastHandle_snoc, gives_message]
    exact (ht.names name).value
  · intro m hm
    rw [hwaiting, hwait] at hm
    exact absurd hm List.not_mem_nil
  · intro id m hm hsent
    rw [hpending] at hm
    have hlt := ht.pending_lt id _ (mem_numbers.mpr ⟨m, hm, rfl⟩)
    rw [sentTo_snoc hlt] at hsent
    obtain ⟨hid, handle, hbound, hharbor, hpacked⟩ := (ht.names name).pending id m hm hsent
    exact ⟨hvalue ▸ hid, handle, hbound.snoc hlt _, hharbor, hpacked.snoc _⟩
  · have hflow' := ht.flow_lt name
    rw [← filter_snoc hflow' (.message source type session other 0 bytes)]
    unfold flow
    rw [left_append, hleft, hvalue, hwaiting, hpending, hnil, hwait]
    show List.filter _ (left es ++ [past.length] ++ [] ++ []) =
        List.filter _ (left es ++ [] ++ []) ++ _
    simp only [List.append_nil, List.filter_append, List.filter_cons_of_pos hto, List.filter_nil]

end

/-! ## A name gets a handle -/

section

variable {past : List Input} {es es' : List Effect} {h h' : Service} {i : Input} {source : Nat}
  {name other : Name}

/-- The handle goes to another name. -/
theorem Tracks.other_named (ht : Tracked past es h) (hstays : Stays h h')
    (hne : ¬Same name other) (hto : toName name i = false) (hgives : gives name i = none)
    (hvalue : h'.value name = h.value name) (hwaiting : h'.waiting name = h.waiting name)
    (hpending : ∀ id, h'.pending id = h.pending id)
    (hleft : ∀ k ∈ left es', k ∈ numbers (h.waiting other)) :
    Tracks name (past ++ [i]) (es ++ es') h' := by
  refine Tracks.elsewhere ht hstays hto hgives hvalue hwaiting
    (fun id => ⟨[], by rw [hpending, List.append_nil], fun _ hm => absurd hm List.not_mem_nil⟩)
    fun k hk => ?_
  obtain ⟨m, hm, rfl⟩ := mem_numbers.mp (hleft k hk)
  obtain ⟨hlt, hsent, -⟩ := (ht.names other).waiting m hm
  rw [sentTo_snoc hlt, Bool.eq_false_iff]
  exact fun hsent' => hne (sentTo_inj hsent' hsent)

/-- The messages that wait for the name leave for its handle. -/
theorem Tracks.named (ht : Tracked past es h) (hstays : Stays h h') (hto : toName name i = false)
    (hgives : gives name i = some source) (hvalue : h'.value name = source)
    (hwaiting : h'.waiting name = []) (hpending : ∀ id, h'.pending id = h.pending id)
    (hharbor : (∃ k ∈ numbers (h.pending (h.value name >>> HANDLE_REMOTE_SHIFT)),
      sentTo name past k) →
        source >>> HANDLE_REMOTE_SHIFT = h.value name >>> HANDLE_REMOTE_SHIFT)
    (hlink : h.waiting name ≠ [] → source >>> HANDLE_REMOTE_SHIFT ≠ h.id ∧
      (h.s (source >>> HANDLE_REMOTE_SHIFT)).fd ≠ 0)
    (hs : h'.s = h.s) (heffects : es' = sendQueue (h.s (source >>> HANDLE_REMOTE_SHIFT)).fd
      ((h.waiting name).map (patch source))) :
    Tracks name (past ++ [i]) (es ++ es') h' := by
  have hnumbers : left es' = numbers (h.waiting name) := by
    rw [heffects, left_sendQueue, numbers_patch]
  refine Tracks.goes_on ht hstays ?_ ?_ ?_ ?_ (fun htoName => ?_) (List.nil_sublist _) ?_
  · rw [hvalue, lastHandle_snoc, hgives]
    rfl
  · intro m hm
    rw [hwaiting] at hm
    exact absurd hm List.not_mem_nil
  · intro id m hm hsent
    rw [hpending] at hm
    have hmem := mem_numbers.mpr ⟨m, hm, rfl⟩
    have hlt := ht.pending_lt id _ hmem
    rw [sentTo_snoc hlt] at hsent
    obtain ⟨rfl, handle, hbound, hid, hpacked⟩ := (ht.names name).pending id m hm hsent
    refine ⟨?_, handle, hbound.snoc hlt _, hid, hpacked.snoc _⟩
    rw [hvalue, hharbor ⟨_, hmem, hsent⟩]
  · intro e he k hk hsent
    rw [heffects] at he
    obtain ⟨m', hm', he⟩ := List.mem_flatMap.mp he
    obtain ⟨m, hm, rfl⟩ := List.mem_map.mp hm'
    obtain ⟨hown, hfd⟩ := hlink (List.ne_nil_of_mem hm)
    rcases List.mem_cons.mp he with rfl | he
    · obtain ⟨hlt, -, hunbound, hunpacked⟩ := (ht.names name).waiting m hm
      refine ⟨source, hunbound.bound hlt hgives, hstays.id ▸ hown, hfd, ?_, ?_⟩
      · rw [hs]
      · exact (hunpacked.patch source).snoc i
    · obtain rfl := List.mem_singleton.mp he
      exact nomatch hk
  · rw [hto] at htoName
    exact nomatch htoName
  · have hflow' := ht.flow_lt name
    rw [← filter_snoc hflow' i, List.append_nil]
    unfold flow
    rw [left_append, hnumbers, hwaiting, hvalue, hpending]
    show List.filter _ (left es ++ numbers (h.waiting name) ++
      numbers (h.pending (source >>> HANDLE_REMOTE_SHIFT)) ++ []) = _
    rw [List.append_nil]
    -- either nothing waits for the name, or nothing of it for the old link and the new one
    have hnone : ∀ id, (¬∃ k ∈ numbers (h.pending id), sentTo name past k) →
        (numbers (h.pending id)).filter (sentTo name (past ++ [i])) = [] := by
      intro id hno
      rw [filter_snoc (ht.pending_lt id)]
      exact List.filter_eq_nil_iff.mpr fun k hk hsent => hno ⟨k, hk, hsent⟩
    by_cases hold : ∃ k ∈ numbers (h.pending (h.value name >>> HANDLE_REMOTE_SHIFT)),
        sentTo name past k
    · have hsame := hharbor hold
      have hnil : h.waiting name = [] := by
        by_contra hne
        have hzero : h.value name = 0 := by
          by_contra hval
          exact hne (ht.inv.waiting_nil hval)
        rw [hzero] at hsame
        have hfd := (hlink hne).2
        rw [hsame] at hfd
        exact hfd ht.inv.zero
      rw [hnil, hsame]
      show List.filter _ (left es ++ [] ++ _) = List.filter _ (left es ++ _ ++ [])
      rw [List.append_nil, List.append_nil]
    · have hnew : ¬∃ k ∈ numbers (h.pending (source >>> HANDLE_REMOTE_SHIFT)),
          sentTo name past k := by
        rintro ⟨k, hk, hsent⟩
        obtain ⟨m, hm, rfl⟩ := mem_numbers.mp hk
        have hid := ((ht.names name).pending _ m hm hsent).1
        exact hold ⟨_, hid ▸ hk, hsent⟩
      simp only [List.filter_append, hnone _ hold, hnone _ hnew, List.append_nil]

end

end Jump.Skynet.HarborService
