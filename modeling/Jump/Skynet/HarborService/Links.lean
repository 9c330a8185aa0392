import Jump.Skynet.HarborLink.Stream
import Jump.Skynet.HarborService.Code

/-! # What socket data does to a link

The decoder of `push_socket_data` as the rest of the service sees it: which status it leaves
and which of the service's own functions it calls.
-/

namespace Jump.Skynet.HarborService

open Jump.Core
open Jump.Skynet.HarborLink

/-- The link carries messages. -/
def Live (s : Slave) : Prop := s.status = .header ∨ s.status = .content

def Forwards : Event → Prop
  | .forward .. => True
  | _ => False

def passEvents : Pass → List Event
  | .ret _ events => events
  | .again _ _ events => events

/-- A pass over a live link hands messages on, or closes the link and ends. -/
def Carries (id : Nat) (p : Pass) : Prop :=
  (Live p.slave ∧ ∀ e ∈ passEvents p, Forwards e) ∨
    ∃ s, p = .ret s [.closeHarbor id] ∧ s.status = .down

theorem passContent_carries (h : Harbor) (id : Nat) {s : Slave} (hs : s.status = .content)
    (buffer : List UInt8) : Carries id (passContent h s buffer) := by
  have hone : ∀ msg, ∀ e ∈ [forwardLocalMessage h msg], Forwards e := by
    intro msg e he
    obtain rfl := List.mem_singleton.mp he
    trivial
  unfold passContent
  dsimp only
  split
  · exact .inl ⟨.inr hs, fun _ he => absurd he List.not_mem_nil⟩
  · split
    · exact .inl ⟨.inl rfl, hone _⟩
    · exact .inl ⟨.inl rfl, hone _⟩

theorem passHeader_carries (h : Harbor) (id : Nat) {s : Slave} (hs : s.status = .header)
    (buffer : List UInt8) : Carries id (passHeader h id s buffer) := by
  unfold passHeader
  dsimp only
  split
  · exact .inl ⟨.inl hs, fun _ he => absurd he List.not_mem_nil⟩
  · split
    · exact .inr ⟨_, rfl, rfl⟩
    · split
      · exact .inl ⟨.inr rfl, fun _ he => absurd he List.not_mem_nil⟩
      · exact passContent_carries h id rfl _

theorem pass_carries (h : Harbor) (id : Nat) {s : Slave} (hs : Live s) (buffer : List UInt8) :
    Carries id (pass h id s buffer) := by
  unfold HarborLink.pass
  rcases hs with hs | hs
  · rw [hs]
    exact passHeader_carries h id hs buffer
  · rw [hs]
    exact passContent_carries h id hs buffer

/-- What a buffer leaves of a live link: messages are handed on, and the link may be closed
after them. -/
def Carried (id : Nat) (s : Slave) (events : List Event) : Prop :=
  (Live s ∧ ∀ e ∈ events, Forwards e) ∨
    ∃ front, events = front ++ [.closeHarbor id] ∧ (∀ e ∈ front, Forwards e) ∧ s.status = .down

theorem Carried.cons {id : Nat} {s : Slave} {front events : List Event}
    (hfront : ∀ e ∈ front, Forwards e) (h : Carried id s events) :
    Carried id s (front ++ events) := by
  rcases h with ⟨hs, hall⟩ | ⟨more, rfl, hmore, hs⟩
  · exact .inl ⟨hs, fun e he => (List.mem_append.mp he).elim (hfront e) (hall e)⟩
  · refine .inr ⟨front ++ more, (List.append_assoc ..).symm, fun e he => ?_, hs⟩
    exact (List.mem_append.mp he).elim (hfront e) (hmore e)

theorem loop_carried {h : Harbor} {id fuel : Nat} {s : Slave} (hs : Live s) {buffer : List UInt8}
    {r : Slave × List Event} (hloop : loop h id fuel s buffer = some r) :
    Carried id r.1 r.2 := by
  induction fuel generalizing s buffer r with
  | zero => exact nomatch hloop
  | succ fuel ih =>
      have hpass := pass_carries h id hs buffer
      rw [loop] at hloop
      cases hp : pass h id s buffer with
      | ret s' events =>
          rw [hp] at hloop hpass
          obtain rfl := Option.some.inj hloop
          rcases hpass with hlive | ⟨t, heq, hdown⟩
          · exact .inl hlive
          · obtain ⟨rfl, rfl⟩ := Pass.ret.inj heq
            exact .inr ⟨[], rfl, fun _ he => absurd he List.not_mem_nil, hdown⟩
      | again s' bytes events =>
          rw [hp] at hloop hpass
          obtain ⟨t, ht, rfl⟩ := Option.map_eq_some_iff.mp hloop
          rcases hpass with ⟨hlive, hfront⟩ | ⟨_, heq, -⟩
          · exact (ih hlive ht).cons hfront
          · cases heq

/-- A link that carries no messages and expects no handshake ignores its data. -/
theorem loop_idle {h : Harbor} {id fuel : Nat} {s : Slave} (hs : ¬Live s)
    (hhand : s.status ≠ .handshake) {buffer : List UInt8} {r : Slave × List Event}
    (hloop : loop h id fuel s buffer = some r) : r = (s, []) := by
  cases fuel with
  | zero => exact nomatch hloop
  | succ fuel =>
      have hret : pass h id s buffer = .ret s [] := by
        unfold HarborLink.pass
        cases hstatus : s.status with
        | wait => rfl
        | down => rfl
        | handshake => exact absurd hstatus hhand
        | header => exact absurd (.inl hstatus) hs
        | content => exact absurd (.inr hstatus) hs
      rw [loop, hret] at hloop
      exact (Option.some.inj hloop).symm

/-- The first byte of a link under way decides about it. -/
theorem loop_greeting {h : Harbor} {id fuel : Nat} {s : Slave} (hs : s.status = .handshake)
    {b : UInt8} {buffer : List UInt8} {r : Slave × List Event}
    (hloop : loop h id fuel s (b :: buffer) = some r) :
    (b.toNat ≠ id ∧ r.1.status = .down ∧ r.2 = [.closeHarbor id]) ∨
      (b.toNat = id ∧ ∃ events, r.2 = .dispatchQueue id :: events ∧ Carried id r.1 events) := by
  cases fuel with
  | zero => exact nomatch hloop
  | succ fuel =>
      have hpass : pass h id s (b :: buffer) = passHandshake h id s (b :: buffer) := by
        unfold HarborLink.pass
        rw [hs]
      rw [loop, hpass] at hloop
      unfold passHandshake at hloop
      by_cases hb : b.toNat ≠ id
      · simp only [if_pos hb, Option.some.injEq] at hloop
        subst hloop
        exact .inl ⟨hb, rfl, rfl⟩
      · simp only [if_neg hb] at hloop
        refine .inr ⟨not_not.mp hb, ?_⟩
        have hnone : ∀ e ∈ ([] : List Event), Forwards e := fun _ he => absurd he List.not_mem_nil
        cases buffer with
        | nil =>
            obtain ⟨t, ht, rfl⟩ := Option.map_eq_some_iff.mp hloop
            exact ⟨t.2, rfl, loop_carried (.inl rfl) ht⟩
        | cons c buffer =>
            have hheader := passHeader_carries h id
              (show ({ s with status := .header } : Slave).status = .header from rfl) (c :: buffer)
            dsimp only at hloop
            cases hp : passHeader h id { s with status := .header } (c :: buffer) with
            | ret s' events =>
                rw [hp] at hloop hheader
                obtain rfl := Option.some.inj hloop
                refine ⟨events, rfl, ?_⟩
                rcases hheader with hlive | ⟨t, heq, hdown⟩
                · exact .inl hlive
                · obtain ⟨rfl, rfl⟩ := Pass.ret.inj heq
                  exact .inr ⟨[], rfl, hnone, hdown⟩
            | again s' bytes events =>
                rw [hp] at hloop hheader
                obtain ⟨t, ht, rfl⟩ := Option.map_eq_some_iff.mp hloop
                refine ⟨events ++ t.2, rfl, ?_⟩
                rcases hheader with ⟨hlive, hfront⟩ | ⟨_, heq, -⟩
                · exact (loop_carried hlive ht).cons hfront
                · cases heq

/-! ## The decoder returns -/

/-- At most three bytes of a size are read before its last one. -/
def Sane (s : Slave) : Prop := s.status ≠ .content → s.status ≠ .down → s.read < 4

theorem passContent_sane (h : Harbor) {s : Slave} (hs : s.status = .content)
    (buffer : List UInt8) : Sane (passContent h s buffer).slave := by
  unfold passContent
  dsimp only
  split
  · exact fun hcontent => absurd hs hcontent
  · split <;> exact fun _ _ => (by decide : 0 < 4)

theorem passHeader_sane (h : Harbor) (id : Nat) {s : Slave} (hread : s.read < 4)
    (buffer : List UInt8) : Sane (passHeader h id s buffer).slave := by
  unfold passHeader
  dsimp only
  split
  · rename_i hshort
    intro _ _
    show s.read + buffer.length < 4
    omega
  · split
    · exact fun _ hdown => absurd rfl hdown
    · split
      · exact fun hcontent => absurd rfl hcontent
      · exact passContent_sane h rfl _

theorem pass_sane (h : Harbor) (id : Nat) {s : Slave} (hs : Sane s) (buffer : List UInt8) :
    Sane (pass h id s buffer).slave := by
  unfold HarborLink.pass
  split
  · rename_i hhand
    have hread : s.read < 4 := hs (hhand ▸ nofun) (hhand ▸ nofun)
    unfold passHandshake
    cases buffer with
    | nil => exact hs
    | cons b buffer =>
        dsimp only
        split
        · exact fun _ hdown => absurd rfl hdown
        · cases buffer with
          | nil => exact fun _ _ => hread
          | cons c buffer =>
              have hheader := passHeader_sane h id
                (show ({ s with status := .header } : Slave).read < 4 from hread) (c :: buffer)
              dsimp only
              split <;> rename_i heq <;> rw [heq] at hheader <;> exact hheader
  · rename_i hheader
    exact passHeader_sane h id (hs (hheader ▸ nofun) (hheader ▸ nofun)) buffer
  · rename_i hcontent
    exact passContent_sane h hcontent buffer
  · exact hs

theorem passContent_again {h : Harbor} {s s' : Slave} {buffer rest : List UInt8}
    {events : List Event} (hp : passContent h s buffer = .again s' rest events) :
    s'.status = .header ∧ rest.length ≤ buffer.length := by
  unfold passContent at hp
  dsimp only at hp
  split at hp
  · cases hp
  · split at hp
    · cases hp
    · obtain ⟨rfl, rfl, -⟩ := Pass.again.inj hp
      refine ⟨rfl, ?_⟩
      rw [List.length_drop]
      exact Nat.sub_le ..

theorem passHeader_again {h : Harbor} {id : Nat} {s s' : Slave} {buffer rest : List UInt8}
    {events : List Event} (hread : s.read < 4)
    (hp : passHeader h id s buffer = .again s' rest events) :
    s'.status = .header ∧ rest.length < buffer.length := by
  unfold passHeader at hp
  dsimp only at hp
  split at hp
  · cases hp
  · split at hp
    · cases hp
    · split at hp
      · cases hp
      · rename_i hlong _ hmore
        obtain ⟨hstatus, hle⟩ := passContent_again hp
        rw [List.length_drop] at hle
        exact ⟨hstatus, by omega⟩

/-- Every pass but the first takes at least one byte. -/
theorem pass_again {h : Harbor} {id : Nat} {s s' : Slave} {buffer rest : List UInt8}
    {events : List Event} (hs : Sane s) (hp : pass h id s buffer = .again s' rest events) :
    s'.status = .header ∧ (rest.length < buffer.length ∨
      s.status = .content ∧ rest.length ≤ buffer.length) := by
  unfold HarborLink.pass at hp
  split at hp
  · rename_i hhand
    have hread : s.read < 4 := hs (hhand ▸ nofun) (hhand ▸ nofun)
    unfold passHandshake at hp
    cases buffer with
    | nil => cases hp
    | cons b buffer =>
        dsimp only at hp
        split at hp
        · cases hp
        · cases buffer with
          | nil =>
              obtain ⟨rfl, rfl, -⟩ := Pass.again.inj hp
              exact ⟨rfl, .inl (Nat.zero_lt_one)⟩
          | cons c buffer =>
              dsimp only at hp
              split at hp
              · cases hp
              · rename_i heq
                obtain ⟨rfl, rfl, -⟩ := Pass.again.inj hp
                obtain ⟨hstatus, hlt⟩ := passHeader_again
                  (show ({ s with status := .header } : Slave).read < 4 from hread) heq
                exact ⟨hstatus, .inl (Nat.lt_succ_of_lt hlt)⟩
  · rename_i hheader
    obtain ⟨hstatus, hlt⟩ := passHeader_again (hs (hheader ▸ nofun) (hheader ▸ nofun)) hp
    exact ⟨hstatus, .inl hlt⟩
  · rename_i hcontent
    obtain ⟨hstatus, hle⟩ := passContent_again hp
    exact ⟨hstatus, .inr ⟨hcontent, hle⟩⟩
  · cases hp

theorem loop_returns (h : Harbor) (id : Nat) {fuel : Nat} {s : Slave} (hs : Sane s)
    {buffer : List UInt8} (hfuel : buffer.length < fuel ∧
      (s.status = .content → buffer.length + 1 < fuel)) :
    ∃ r, loop h id fuel s buffer = some r ∧ Sane r.1 := by
  induction fuel generalizing s buffer with
  | zero => exact absurd hfuel.1 (Nat.not_lt_zero _)
  | succ fuel ih =>
      have hsane := pass_sane h id hs buffer
      cases hp : pass h id s buffer with
      | ret s' events =>
          rw [hp] at hsane
          rw [loop, hp]
          exact ⟨_, rfl, hsane⟩
      | again s' rest events =>
          rw [hp] at hsane
          have hsane' : Sane s' := hsane
          obtain ⟨hstatus, hlen⟩ := pass_again hs hp
          have hrest : rest.length < fuel := by
            rcases hlen with hlt | ⟨hcontent, hle⟩
            · have hshort := hfuel.1
              omega
            · have hshort := hfuel.2 hcontent
              omega
          obtain ⟨r, hloop, hr⟩ := ih hsane' ⟨hrest, fun hcontent =>
            absurd (hstatus.symm.trans hcontent) (by simp)⟩
          rw [loop, hp]
          dsimp only
          rw [hloop]
          exact ⟨_, rfl, hr⟩

/-! ## The queue of the link -/

/-- A pass over a live link sends no queue. -/
theorem Carries.not_dispatch {id j : Nat} {p : Pass} (h : Carries id p) :
    .dispatchQueue j ∉ passEvents p := by
  intro hmem
  obtain ⟨-, hall⟩ | ⟨s', heq, -⟩ := h
  · exact hall _ hmem
  · rw [heq] at hmem
    cases List.mem_singleton.mp hmem

/-- Only the link that the data came from sends its queue. -/
theorem pass_dispatches {h : Harbor} {id j : Nat} {s : Slave} {buffer : List UInt8}
    (hmem : .dispatchQueue j ∈ passEvents (pass h id s buffer)) : j = id ∧ s.status ≠ .wait := by
  by_cases hlive : Live s
  · exact absurd hmem (pass_carries h id hlive buffer).not_dispatch
  · unfold HarborLink.pass at hmem
    cases hs : s.status with
    | handshake =>
        rw [hs] at hmem
        refine ⟨?_, nofun⟩
        unfold passHandshake at hmem
        cases buffer with
        | nil => cases hmem
        | cons b buffer =>
            dsimp only at hmem
            split at hmem
            · cases List.mem_singleton.mp hmem
            · cases buffer with
              | nil =>
                  cases List.mem_singleton.mp hmem
                  rfl
              | cons c buffer =>
                  have hnot := (passHeader_carries h id (s := { s with status := .header }) rfl
                    (c :: buffer)).not_dispatch (j := j)
                  dsimp only at hmem
                  split at hmem
                  · rename_i heq
                    rw [heq] at hnot
                    cases hmem with
                    | head => rfl
                    | tail _ hmem => exact absurd hmem hnot
                  · rename_i heq
                    rw [heq] at hnot
                    cases hmem with
                    | head => rfl
                    | tail _ hmem => exact absurd hmem hnot
    | header => exact absurd (.inl hs) hlive
    | content => exact absurd (.inr hs) hlive
    | wait =>
        rw [hs] at hmem
        cases hmem
    | down =>
        rw [hs] at hmem
        cases hmem

theorem loop_dispatches {h : Harbor} {id j fuel : Nat} {s : Slave} {buffer : List UInt8}
    {r : Slave × List Event} (hloop : loop h id fuel s buffer = some r)
    (hmem : .dispatchQueue j ∈ r.2) : j = id ∧ s.status ≠ .wait := by
  induction fuel generalizing s buffer r with
  | zero => cases hloop
  | succ fuel ih =>
      have hpass := @pass_dispatches h id j s buffer
      rw [loop] at hloop
      cases hp : pass h id s buffer with
      | ret s' events =>
          rw [hp] at hloop hpass
          obtain rfl := Option.some.inj hloop
          exact hpass hmem
      | again s' rest events =>
          have hwait : s.status ≠ .wait := by
            intro hwait
            rw [HarborLink.pass, hwait] at hp
            cases hp
          rw [hp] at hloop hpass
          obtain ⟨t, ht, rfl⟩ := Option.map_eq_some_iff.mp hloop
          cases List.mem_append.mp hmem with
          | inl hfront => exact hpass hfront
          | inr hrest => exact ⟨(ih ht hrest).1, hwait⟩

end Jump.Skynet.HarborService
