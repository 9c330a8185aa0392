import Jump.Skynet.SocketServer.Steps

/-! # Descriptors and the poll set

A descriptor in the poll set belongs to one slot, and those that slots, threads and commands still
hold for later are not in it. Write events are enabled for every socket that has something to send.
-/

namespace Jump.Skynet.SocketServer

open Jump.Core

/-- The types of sockets whose descriptors are in the poll set. -/
def SocketType.polled : SocketType → Bool
  | .listen | .connecting | .connected | .halfclose | .bind => true
  | .invalid | .reserve | .plisten | .paccept => false

/-- The types of sockets that `start_socket` is to put there. -/
def SocketType.waiting : SocketType → Bool
  | .plisten | .paccept => true
  | _ => false

/-- What holds of the slot `h` with the socket `s`. -/
structure Wired (w : Sockets) (held : List Int) (h : Nat) (s : Socket) : Prop where
  polled : s.type.polled = true → ∃ b, w.poll s.fd = some (h, b) ∧
    (s.sendBufferEmpty = false ∨ s.type = .connecting → b = true)
  waiting : s.type.waiting = true → .obtain s.fd ∈ w.log ∧ w.poll s.fd = none ∧ s.fd ∉ held
  empty : s.type.waiting = true ∨ s.type = .listen → s.sendBufferEmpty = true

/-- Who has which descriptor: `held` are those from the system that threads and commands have, and
`given` those from the callers of `socket_server_bind`. -/
structure Owned (w : Sockets) (held given : List Int) : Prop where
  slot (h : Nat) : Wired w held h (w.slot h)
  apart {h i : Nat} : (w.slot h).type.waiting = true → (w.slot i).type.waiting = true →
    (w.slot h).fd = (w.slot i).fd → h = i
  nodup : held.Nodup
  held : ∀ fd ∈ held, .obtain fd ∈ w.log ∧ w.poll fd = none
  given : ∀ fd ∈ given, .given fd ∈ w.log
  known {fd : Int} : w.poll fd ≠ none → .obtain fd ∈ w.log ∨ .given fd ∈ w.log
  disjoint {fd : Int} : .obtain fd ∈ w.log → .given fd ∉ w.log

section Update

variable {w w' : Sockets} {held held' given given' : List Int} {h : Nat} {fd : Int} {s : Socket}

theorem waiting_not_polled {type : SocketType} (hw : type.waiting = true) :
    type.polled = false := by
  cases type with
  | plisten | paccept => rfl
  | _ => cases hw

theorem polled_not_waiting {type : SocketType} (hp : type.polled = true) :
    type.waiting = false := by
  cases type with
  | plisten | paccept => cases hp
  | _ => rfl

/-- A slot that is neither polled nor waiting -/
theorem Wired.free (hpolled : s.type.polled = false) (hwaiting : s.type.waiting = false) :
    Wired w held h s := by
  refine ⟨?_, ?_, ?_⟩
  · intro hp
    rw [hpolled] at hp
    cases hp
  · intro hw
    rw [hwaiting] at hw
    cases hw
  · intro hw
    cases hw with
    | inl hw =>
        rw [hwaiting] at hw
        cases hw
    | inr hw =>
        rw [hw] at hpolled
        cases hpolled

theorem Owned.mono (ho : Owned w held given) (hnodup : held'.Nodup)
    (hheld : ∀ fd ∈ held', fd ∈ held) (hgiven : ∀ fd ∈ given', fd ∈ given) :
    Owned w held' given' where
  slot h := {
    polled := (ho.slot h).polled
    waiting := fun hw => by
      obtain ⟨hobtain, hpoll, hnot⟩ := (ho.slot h).waiting hw
      exact ⟨hobtain, hpoll, fun hmem => hnot (hheld _ hmem)⟩
    empty := (ho.slot h).empty }
  apart := ho.apart
  nodup := hnodup
  held fd hfd := ho.held fd (hheld fd hfd)
  given fd hfd := ho.given fd (hgiven fd hfd)
  known := ho.known
  disjoint := ho.disjoint

theorem Owned.perm (ho : Owned w held given) (hperm : held.Perm held')
    (hgiven : ∀ fd ∈ given', fd ∈ given) : Owned w held' given' :=
  ho.mono (hperm.nodup_iff.mp ho.nodup) (fun _ hmem => hperm.mem_iff.mpr hmem) hgiven

/-- The slot `h` changes, and of the poll set at most the entry of `fd`, which no other slot and
nobody else has. -/
theorem Owned.update (ho : Owned w held given) (hlocal : Local w w')
    (hother : ∀ i ≠ h, w'.slot i = w.slot i) (hpoll : ∀ fd' ≠ fd, w'.poll fd' = w.poll fd')
    (hpolled : ∀ i ≠ h, (w.slot i).type.polled = true → (w.slot i).fd ≠ fd)
    (hwaiting : ∀ i ≠ h, (w.slot i).type.waiting = true →
      w'.poll (w.slot i).fd = none ∧ ((w'.slot h).type.waiting = true →
        (w.slot i).fd ≠ (w'.slot h).fd))
    (hheld : ∀ fd' ∈ held, w'.poll fd' = none)
    (hknown : w'.poll fd ≠ none → .obtain fd ∈ w.log ∨ .given fd ∈ w.log)
    (hs : Wired w' held h (w'.slot h)) : Owned w' held given := by
  refine ⟨?_, ?_, ho.nodup, ?_, ?_, ?_, ?_⟩
  · intro i
    by_cases hi : i = h
    · rw [hi]
      exact hs
    · rw [hother i hi]
      have hold := ho.slot i
      refine ⟨?_, ?_, hold.empty⟩
      · intro hp
        rw [hpoll _ (hpolled i hi hp)]
        exact hold.polled hp
      · intro hw
        obtain ⟨hobtain, _, hnot⟩ := hold.waiting hw
        exact ⟨(hlocal.obtained _).mpr hobtain, (hwaiting i hi hw).1, hnot⟩
  · intro i j hwi hwj hfd
    by_cases hi : i = h
    · by_cases hj : j = h
      · rw [hi, hj]
      · rw [hi] at hwi hfd
        rw [hother j hj] at hwj hfd
        exact absurd hfd.symm ((hwaiting j hj hwj).2 hwi)
    · rw [hother i hi] at hwi hfd
      by_cases hj : j = h
      · rw [hj] at hwj hfd
        exact absurd hfd ((hwaiting i hi hwi).2 hwj)
      · rw [hother j hj] at hwj hfd
        exact ho.apart hwi hwj hfd
  · intro fd' hfd'
    exact ⟨(hlocal.obtained fd').mpr (ho.held fd' hfd').1, hheld fd' hfd'⟩
  · intro fd' hfd'
    exact (hlocal.given fd').mpr (ho.given fd' hfd')
  · intro fd' hfd'
    rw [hlocal.obtained, hlocal.given]
    by_cases heq : fd' = fd
    · rw [heq] at hfd' ⊢
      exact hknown hfd'
    · rw [hpoll fd' heq] at hfd'
      exact ho.known hfd'
  · intro fd' hobtain hgiven
    exact ho.disjoint ((hlocal.obtained fd').mp hobtain) ((hlocal.given fd').mp hgiven)

/-- The poll set stays, and the slot does not begin to wait with another descriptor. -/
theorem Owned.of_slot (ho : Owned w held given) (hlocal : Local w w')
    (hother : ∀ i ≠ h, w'.slot i = w.slot i) (hpoll : w'.poll = w.poll)
    (hwait : (w'.slot h).type.waiting = true →
      (w.slot h).type.waiting = true ∧ (w'.slot h).fd = (w.slot h).fd)
    (hs : Wired w' held h (w'.slot h)) : Owned w' held given := by
  refine ⟨?_, ?_, ho.nodup, ?_, ?_, ?_, ?_⟩
  · intro i
    by_cases hi : i = h
    · rw [hi]
      exact hs
    · rw [hother i hi]
      refine ⟨?_, ?_, (ho.slot i).empty⟩
      · rw [hpoll]
        exact (ho.slot i).polled
      · rw [hpoll, hlocal.obtained]
        exact (ho.slot i).waiting
  · have hback : ∀ i, (w'.slot i).type.waiting = true →
        (w.slot i).type.waiting = true ∧ (w'.slot i).fd = (w.slot i).fd := by
      intro i hw
      by_cases hi : i = h
      · rw [hi] at hw ⊢
        exact hwait hw
      · rw [hother i hi] at hw ⊢
        exact ⟨hw, rfl⟩
    intro i j hwi hwj hfd
    obtain ⟨hwi, hfdi⟩ := hback i hwi
    obtain ⟨hwj, hfdj⟩ := hback j hwj
    rw [hfdi, hfdj] at hfd
    exact ho.apart hwi hwj hfd
  · intro fd hfd
    rw [hlocal.obtained, hpoll]
    exact ho.held fd hfd
  · intro fd hfd
    exact (hlocal.given fd).mpr (ho.given fd hfd)
  · intro fd hfd
    rw [hlocal.obtained, hlocal.given]
    rw [hpoll] at hfd
    exact ho.known hfd
  · intro fd hobtain hgiven
    exact ho.disjoint ((hlocal.obtained fd).mp hobtain) ((hlocal.given fd).mp hgiven)

/-- Neither slots nor the poll set change. -/
theorem Owned.of_log (ho : Owned w held given) (hlocal : Local w w') (hslot : w'.slot = w.slot)
    (hpoll : w'.poll = w.poll) : Owned w' held given := by
  have hs := ho.slot 0
  apply ho.of_slot (h := 0) hlocal
  · intro i _
    rw [hslot]
  · exact hpoll
  · intro hw
    rw [hslot] at hw ⊢
    exact ⟨hw, rfl⟩
  · rw [hslot]
    refine ⟨?_, ?_, hs.empty⟩
    · rw [hpoll]
      exact hs.polled
    · rw [hpoll, hlocal.obtained]
      exact hs.waiting

/-- A socket that is polled works on its own entry. -/
theorem Owned.of_own (ho : Owned w held given) (hp : (w.slot h).type.polled = true)
    (hlocal : Local w w') (hother : ∀ i ≠ h, w'.slot i = w.slot i)
    (hpoll : ∀ fd ≠ (w.slot h).fd, w'.poll fd = w.poll fd)
    (hwait : (w'.slot h).type.waiting = false) (hs : Wired w' held h (w'.slot h)) :
    Owned w' held given := by
  obtain ⟨b, hb, _⟩ := (ho.slot h).polled hp
  have hne : ∀ {fd : Int}, w.poll fd = none → fd ≠ (w.slot h).fd := by
    intro fd hnone heq
    rw [heq, hb] at hnone
    cases hnone
  apply ho.update hlocal hother hpoll
  · intro i hi hpi hfd
    obtain ⟨c, hc, _⟩ := (ho.slot i).polled hpi
    rw [hfd, hb] at hc
    exact hi (Prod.ext_iff.mp (Option.some.inj hc)).1.symm
  · intro i hi hwi
    have hnone := ((ho.slot i).waiting hwi).2.1
    refine ⟨(hpoll _ (hne hnone)).trans hnone, ?_⟩
    intro hw
    rw [hwait] at hw
    cases hw
  · intro fd hfd
    have hnone := (ho.held fd hfd).2
    exact (hpoll fd (hne hnone)).trans hnone
  · intro _
    apply ho.known
    rw [hb]
    exact Option.some_ne_none _
  · exact hs

/-- A descriptor that nobody else has gets into the poll set for the slot `h`. -/
theorem Owned.register {b : Bool} (ho : Owned w held given) (hlocal : Local w w')
    (hother : ∀ i ≠ h, w'.slot i = w.slot i) (hnone : w.poll fd = none)
    (hpoll : w'.poll = Function.update w.poll fd (some (h, b)))
    (hwaiting : ∀ i ≠ h, (w.slot i).type.waiting = true → (w.slot i).fd ≠ fd)
    (hheld : fd ∉ held) (hknown : .obtain fd ∈ w.log ∨ .given fd ∈ w.log)
    (hp : (w'.slot h).type.polled = true) (hfd : (w'.slot h).fd = fd)
    (hempty : (w'.slot h).sendBufferEmpty = true)
    (hb : (w'.slot h).type = .connecting → b = true) : Owned w' held given := by
  have helse : ∀ fd' ≠ fd, w'.poll fd' = w.poll fd' := by
    intro fd' hne
    rw [hpoll, Function.update_of_ne hne]
  have hnwait : (w'.slot h).type.waiting ≠ true := by
    intro hw
    rw [waiting_not_polled hw] at hp
    cases hp
  apply ho.update hlocal hother helse
  · intro i hi hpi hfdi
    obtain ⟨c, hc, _⟩ := (ho.slot i).polled hpi
    rw [hfdi, hnone] at hc
    cases hc
  · intro i hi hwi
    exact ⟨(helse _ (hwaiting i hi hwi)).trans ((ho.slot i).waiting hwi).2.1,
      fun hw => absurd hw hnwait⟩
  · intro fd' hfd'
    have hne : fd' ≠ fd := fun heq => hheld (heq ▸ hfd')
    exact (helse fd' hne).trans (ho.held fd' hfd').2
  · exact fun _ => hknown
  · refine ⟨fun _ => ⟨b, ?_, ?_⟩, fun hw => absurd hw hnwait, fun _ => hempty⟩
    · rw [hfd, hpoll, Function.update_self]
    · intro hmust
      cases hmust with
      | inl hmore =>
          rw [hempty] at hmore
          cases hmore
      | inr hconn => exact hb hconn

/-- A descriptor from `socket` or `accept` is held. -/
theorem Owned.obtain (ho : Owned w held given) (hfresh : w.Fresh fd) :
    Owned (w.emit [.obtain fd]) (fd :: held) given := by
  have hnone : w.poll fd = none := by
    by_contra hsome
    cases ho.known hsome with
    | inl hobtain => exact hfresh.1 hobtain
    | inr hgiven => exact hfresh.2 hgiven
  have hmore : ∀ {e : Effect}, e ∈ w.log → e ∈ (w.emit [.obtain fd]).log := by
    intro e he
    exact List.mem_append_left _ he
  have hgiven : ∀ {fd' : Int}, .given fd' ∈ (w.emit [.obtain fd]).log → .given fd' ∈ w.log := by
    intro fd' hmem
    cases List.mem_append.mp hmem with
    | inl hold => exact hold
    | inr hnew => cases List.mem_singleton.mp hnew
  refine ⟨?_, ho.apart, ?_, ?_, fun fd' hfd' => hmore (ho.given fd' hfd'), ?_, ?_⟩
  · intro i
    refine ⟨(ho.slot i).polled, ?_, (ho.slot i).empty⟩
    intro hw
    obtain ⟨hobtain, hpoll, hnot⟩ := (ho.slot i).waiting hw
    refine ⟨hmore hobtain, hpoll, ?_⟩
    intro hmem
    cases List.mem_cons.mp hmem with
    | inl heq =>
        have hsame : (w.slot i).fd = fd := heq
        rw [hsame] at hobtain
        exact hfresh.1 hobtain
    | inr hheld => exact hnot hheld
  · refine List.nodup_cons.mpr ⟨?_, ho.nodup⟩
    intro hmem
    exact hfresh.1 (ho.held fd hmem).1
  · intro fd' hfd'
    cases List.mem_cons.mp hfd' with
    | inl heq =>
        rw [heq]
        exact ⟨List.mem_append_right _ List.mem_cons_self, hnone⟩
    | inr hheld => exact ⟨hmore (ho.held fd' hheld).1, (ho.held fd' hheld).2⟩
  · intro fd' hfd'
    exact (ho.known hfd').imp hmore hmore
  · intro fd' hobtain hgiv
    cases List.mem_append.mp hobtain with
    | inl hold => exact ho.disjoint hold (hgiven hgiv)
    | inr hnew =>
        obtain rfl := Effect.obtain.inj (List.mem_singleton.mp hnew)
        exact hfresh.2 (hgiven hgiv)

/-- One that is held is closed. -/
theorem Owned.release (ho : Owned w (fd :: held) given) : Owned (w.close fd) held given := by
  have hsub : Owned w held given :=
    ho.mono (List.nodup_cons.mp ho.nodup).2 (fun _ hmem => List.mem_cons_of_mem fd hmem)
      fun _ hmem => hmem
  apply hsub.of_log
  · exact .of_log rfl rfl (.cons trivial .nil)
  · rfl
  · change Function.update w.poll fd none = w.poll
    rw [← (ho.held fd List.mem_cons_self).2, Function.update_eq_self]

/-- A caller gives a descriptor. -/
theorem Owned.hand (ho : Owned w held given) (hnew : .obtain fd ∉ w.log) :
    Owned (w.emit [.given fd]) held (fd :: given) := by
  have hmore : ∀ {e : Effect}, e ∈ w.log → e ∈ (w.emit [.given fd]).log := by
    intro e he
    exact List.mem_append_left _ he
  have hobtain : ∀ {fd' : Int}, .obtain fd' ∈ (w.emit [.given fd]).log → .obtain fd' ∈ w.log := by
    intro fd' hmem
    cases List.mem_append.mp hmem with
    | inl hold => exact hold
    | inr hlast => cases List.mem_singleton.mp hlast
  refine ⟨?_, ho.apart, ho.nodup, ?_, ?_, ?_, ?_⟩
  · intro i
    refine ⟨(ho.slot i).polled, ?_, (ho.slot i).empty⟩
    intro hw
    obtain ⟨hold, hrest⟩ := (ho.slot i).waiting hw
    exact ⟨hmore hold, hrest⟩
  · intro fd' hfd'
    exact ⟨hmore (ho.held fd' hfd').1, (ho.held fd' hfd').2⟩
  · intro fd' hfd'
    cases List.mem_cons.mp hfd' with
    | inl heq =>
        rw [heq]
        exact List.mem_append_right _ List.mem_cons_self
    | inr hold => exact hmore (ho.given fd' hold)
  · intro fd' hfd'
    exact (ho.known hfd').imp hmore hmore
  · intro fd' hobt hgiv
    cases List.mem_append.mp hgiv with
    | inl hold => exact ho.disjoint (hobtain hobt) hold
    | inr hlast =>
        obtain rfl := Effect.given.inj (List.mem_singleton.mp hlast)
        exact hnew (hobtain hobt)

end Update

end Jump.Skynet.SocketServer
