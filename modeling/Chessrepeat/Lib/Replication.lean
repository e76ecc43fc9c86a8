import Mathlib.Data.List.Basic

/-!
# Optimistic replication through a server

Every peer edits a replica of its own at once and sends the operation to the server, which carries out the
operations of one peer in their order (`commit`) and passes each on to all the others later (`publish`), who then
carry it out too. Nobody gets an operation of its own back. What is on its way to a peer leads its replica to where
its own unhandled operations lead the master, as long as operations that cross each other commute.
-/

namespace Chessrepeat.Lib

namespace Replication

variable {ι σ ο : Type*} (apply : ο → σ → σ)

/-- The operations one after the other. -/
def play (os : List ο) (s : σ) : σ := os.foldl (fun s o => apply o s) s

def Commute (a b : ο) : Prop := ∀ s, apply a (apply b s) = apply b (apply a s)

variable {apply}

@[simp] theorem play_nil (s : σ) : play apply [] s = s := rfl

@[simp] theorem play_cons (o : ο) (os : List ο) (s : σ) : play apply (o :: os) s = play apply os (apply o s) := rfl

@[simp] theorem play_append (os ps : List ο) (s : σ) :
    play apply (os ++ ps) s = play apply ps (play apply os s) := List.foldl_append

theorem Commute.symm {a b : ο} (h : Commute apply a b) : Commute apply b a := fun s => (h s).symm

/-- An operation that commutes with all of a list may be done first. -/
theorem play_apply {o : ο} {os : List ο} (h : ∀ a ∈ os, Commute apply a o) (s : σ) :
    play apply os (apply o s) = apply o (play apply os s) := by
  induction os generalizing s with
  | nil => rfl
  | cons a os ih =>
      rw [play_cons, h a List.mem_cons_self, ih fun b hb => h b (List.mem_cons_of_mem _ hb), play_cons]

end Replication

open Replication

/-- `ready` holds what has been carried out on the master and not been passed on yet, with the peer it came from. A
peer is stale when nothing is said about its replica. -/
structure Net (ι σ ο : Type*) where
  master : σ
  replica : ι → σ
  outbox : ι → List ο
  ready : List (ι × ο)
  inbox : ι → List ο
  stale : ι → Prop

namespace Net

variable {ι σ ο : Type*} [DecidableEq ι]

/-- What the peer will get of the operations carried out already. -/
def unseen (n : Net ι σ ο) (i : ι) : List ο := (n.ready.filter fun e => e.1 ≠ i).map Prod.snd

/-- An operation of the peer that has not been passed on. -/
def Pending (n : Net ι σ ο) (i : ι) (o : ο) : Prop := o ∈ n.outbox i ∨ (i, o) ∈ n.ready

variable (apply : ο → σ → σ)

def Coherent (n : Net ι σ ο) (i : ι) : Prop :=
  play apply (n.inbox i ++ n.unseen i) (n.replica i) = play apply (n.outbox i) n.master

structure Inv (n : Net ι σ ο) : Prop where
  coherent : ∀ i, n.stale i ∨ n.Coherent apply i
  independent : ∀ i j, i ≠ j → ∀ a b, n.Pending i a → n.Pending j b → Commute apply a b

/-- What a step leaves alone at every peer but `i`. -/
structure Frame (n n' : Net ι σ ο) (i : ι) : Prop where
  replica : ∀ j, j ≠ i → n'.replica j = n.replica j
  outbox : ∀ j, j ≠ i → n'.outbox j = n.outbox j
  stale : ∀ j, j ≠ i → n.stale j → n'.stale j

/-- What happens in a step. A commit, the passing on and the carrying out of an operation are `traffic`. -/
inductive Label (ι ο : Type*) where
  | edit (i : ι) (o : ο)
  | refuse (i : ι)
  | reload (i : ι)
  | traffic

/-- The steps of a net. What `refuse` drops is not carried out, and `reload` is any change of a replica. A peer that
does not get what it should is stale afterwards. -/
inductive Step (n n' : Net ι σ ο) : Label ι ο → Prop where
  | edit (i : ι) (o : ο) (frame : Frame n n' i) (master : n'.master = n.master) (ready : n'.ready = n.ready)
      (inbox : n'.inbox = n.inbox) (outbox : n'.outbox i = n.outbox i ++ [o])
      (replica : n'.stale i ∨ ¬n.stale i ∧ n'.replica i = apply o (n.replica i)) : Step n n' (.edit i o)
  | commit (i : ι) (o : ο) (frame : Frame n n' i) (outbox : n.outbox i = o :: n'.outbox i)
      (master : n'.master = apply o n.master) (ready : n'.ready = n.ready ++ [(i, o)]) (inbox : n'.inbox = n.inbox)
      (replica : n'.replica i = n.replica i) (stale : n.stale i → n'.stale i) : Step n n' .traffic
  | refuse (i : ι) (o : ο) (frame : Frame n n' i) (outbox : n.outbox i = o :: n'.outbox i)
      (master : n'.master = n.master) (ready : n'.ready = n.ready) (inbox : n'.inbox = n.inbox) (stale : n'.stale i) :
      Step n n' (.refuse i)
  | publish (i : ι) (o : ο) (before after : List (ι × ο)) (first : ∀ e ∈ before, e.1 ≠ i)
      (ready : n.ready = before ++ (i, o) :: after) (ready' : n'.ready = before ++ after)
      (master : n'.master = n.master) (replica : n'.replica = n.replica) (outbox : n'.outbox = n.outbox)
      (inbox : ∀ j, n'.stale j ∨ n'.inbox j = if j = i then n.inbox j else n.inbox j ++ [o])
      (stale : ∀ j, n.stale j → n'.stale j) : Step n n' .traffic
  | deliver (i : ι) (o : ο) (frame : Frame n n' i) (master : n'.master = n.master) (ready : n'.ready = n.ready)
      (inbox : n.inbox i = o :: n'.inbox i) (others : ∀ j, j ≠ i → n'.inbox j = n.inbox j)
      (outbox : n'.outbox i = n.outbox i)
      (replica : n'.stale i ∨ ¬n.stale i ∧ n'.replica i = apply o (n.replica i)) : Step n n' .traffic
  | idle (i : ι) (frame : Frame n n' i) (master : n'.master = n.master) (ready : n'.ready = n.ready)
      (inbox : n'.inbox = n.inbox) (outbox : n'.outbox i = n.outbox i)
      (replica : n'.stale i ∨ ¬n.stale i ∧ n'.replica i = n.replica i) : Step n n' .traffic
  | reload (i : ι) (frame : Frame n n' i) (master : n'.master = n.master) (ready : n'.ready = n.ready)
      (inbox : n'.inbox = n.inbox) (outbox : n'.outbox i = n.outbox i) : Step n n' (.reload i)

/-- An edit crosses nothing it does not commute with, and a reload leaves the peer stale or up to date. -/
def Uncrossed (n n' : Net ι σ ο) : Label ι ο → Prop
  | .edit i o => (n'.stale i ∨ ∀ a ∈ n.inbox i, Commute apply a o) ∧
      ∀ j, j ≠ i → ∀ a, n.Pending j a → Commute apply a o
  | .reload i => n'.stale i ∨ n'.Coherent apply i
  | _ => True

variable {apply}

variable {n n' : Net ι σ ο} {l : Label ι ο} {i j : ι} {o : ο}

theorem Pending.of_unseen (h : o ∈ n.unseen i) : ∃ j, j ≠ i ∧ n.Pending j o := by
  obtain ⟨e, he, rfl⟩ := List.mem_map.mp h
  obtain ⟨he, hne⟩ := List.mem_filter.mp he
  exact ⟨e.1, of_decide_eq_true hne, Or.inr he⟩

theorem unseen_congr (h : n'.ready = n.ready) (i : ι) : n'.unseen i = n.unseen i := by
  rw [unseen, h, ← unseen]

theorem Coherent.congr (h : n.Coherent apply j) (master : n'.master = n.master) (ready : n'.ready = n.ready)
    (inbox : n'.inbox j = n.inbox j) (replica : n'.replica j = n.replica j) (outbox : n'.outbox j = n.outbox j) :
    n'.Coherent apply j := by
  rw [Coherent, master, unseen_congr ready, inbox, replica, outbox]
  exact h

/-- At a peer that a step leaves alone. -/
theorem Inv.keep (h : Inv apply n) (frame : Frame n n' i) (hj : j ≠ i)
    (hc : n.Coherent apply j → n'.replica j = n.replica j → n'.outbox j = n.outbox j → n'.Coherent apply j) :
    n'.stale j ∨ n'.Coherent apply j :=
  (h.coherent j).imp (frame.stale j hj) fun h => hc h (frame.replica j hj) (frame.outbox j hj)

/-! ## One step -/

theorem Inv.coherent_step (h : Inv apply n) (hs : Step apply n n' l) (hl : Uncrossed apply n n' l) (j : ι) :
    n'.stale j ∨ n'.Coherent apply j := by
  cases hs with
  | edit i o frame master ready inbox outbox replica =>
      by_cases hj : j = i
      · subst hj
        rcases replica with hst | ⟨hst, hrep⟩
        · exact Or.inl hst
        · refine hl.1.imp_right fun hcomm => ?_
          have hall : ∀ a ∈ n.inbox j ++ n.unseen j, Commute apply a o := by
            intro a ha
            rcases List.mem_append.mp ha with ha | ha
            · exact hcomm a ha
            · obtain ⟨k, hk, hp⟩ := Pending.of_unseen ha
              exact hl.2 k hk a hp
          rw [Coherent, inbox, unseen_congr ready, hrep, play_apply hall, master, outbox,
            play_append (n.outbox j), (h.coherent j).resolve_left hst]
          rfl
      · exact h.keep frame hj fun hc hr ho => hc.congr master ready (congrFun inbox j) hr ho
  | commit i o frame outbox master ready inbox replica stale =>
      by_cases hj : j = i
      · subst hj
        refine (h.coherent j).imp stale fun hc => ?_
        have hun : n'.unseen j = n.unseen j := by simp [unseen, ready]
        rw [Coherent, outbox] at hc
        rw [Coherent, inbox, hun, replica, hc, master, play_cons]
      · refine h.keep frame hj fun hc hr ho => ?_
        -- the new operation comes last, behind what the peer has not seen
        have hun : n'.unseen j = n.unseen j ++ [o] := by simp [unseen, ready, Ne.symm hj]
        have hcomm : ∀ a ∈ n.outbox j, Commute apply a o := fun a ha =>
          h.independent j i hj a o (Or.inl ha) (Or.inl (outbox ▸ List.mem_cons_self))
        rw [Coherent, inbox, hun, hr, ho, master, ← List.append_assoc, play_append, hc, play_apply hcomm]
        rfl
  | refuse i o frame outbox master ready inbox stale =>
      by_cases hj : j = i
      · exact Or.inl (hj ▸ stale)
      · exact h.keep frame hj fun hc hr ho => hc.congr master ready (congrFun inbox j) hr ho
  | publish i o before after first ready ready' master replica outbox inbox stale =>
      refine (inbox j).elim Or.inl fun hin => (h.coherent j).imp (stale j) fun hc => ?_
      rw [Coherent, unseen, ready, ← congrFun replica j, ← congrFun outbox j, ← master] at hc
      rw [Coherent, unseen, ready', hin, ← hc]
      by_cases hj : j = i
      · simp [hj]
      · -- the operation overtakes those of other peers, for its own peer has none before it
        have hcomm : ∀ a ∈ (before.filter fun e => e.1 ≠ j).map Prod.snd, Commute apply a o := by
          intro a ha
          obtain ⟨e, he, rfl⟩ := List.mem_map.mp ha
          have he := (List.mem_filter.mp he).1
          exact h.independent e.1 i (first e he) e.2 o (Or.inr (ready ▸ List.mem_append_left _ he))
            (Or.inr (ready ▸ List.mem_append_right _ List.mem_cons_self))
        rw [if_neg hj, List.filter_append, List.filter_append, List.filter_cons_of_pos (by simpa using Ne.symm hj),
          List.map_append, List.map_append, List.map_cons]
        simp only [play_append, play_cons, play_nil]
        rw [play_apply hcomm]
  | deliver i o frame master ready inbox others outbox replica =>
      by_cases hj : j = i
      · subst hj
        refine replica.imp_right fun ⟨hst, hrep⟩ => ?_
        have hc := (h.coherent j).resolve_left hst
        rw [Coherent, inbox] at hc
        rw [Coherent, unseen_congr ready, hrep, outbox, master, ← hc]
        rfl
      · exact h.keep frame hj fun hc hr ho => hc.congr master ready (others j hj) hr ho
  | idle i frame master ready inbox outbox replica =>
      by_cases hj : j = i
      · subst hj
        refine replica.imp_right fun ⟨hst, hrep⟩ => ?_
        exact ((h.coherent j).resolve_left hst).congr master ready (congrFun inbox j) hrep outbox
      · exact h.keep frame hj fun hc hr ho => hc.congr master ready (congrFun inbox j) hr ho
  | reload i frame master ready inbox outbox =>
      by_cases hj : j = i
      · exact hj ▸ hl
      · exact h.keep frame hj fun hc hr ho => hc.congr master ready (congrFun inbox j) hr ho

/-- Only a reload brings a stale peer up to date. -/
theorem Step.stale (hs : Step apply n n' l) (hl : l ≠ .reload j) (h : n.stale j) : n'.stale j := by
  cases hs with
  | edit i o frame _ _ _ _ replica =>
      by_cases hj : j = i
      · subst hj
        exact replica.resolve_right fun hr => hr.1 h
      · exact frame.stale j hj h
  | commit i o frame _ _ _ _ _ stale =>
      by_cases hj : j = i
      · subst hj
        exact stale h
      · exact frame.stale j hj h
  | refuse i o frame _ _ _ _ stale =>
      by_cases hj : j = i
      · exact hj ▸ stale
      · exact frame.stale j hj h
  | publish i o _ _ _ _ _ _ _ _ _ stale => exact stale j h
  | deliver i o frame _ _ _ _ _ replica =>
      by_cases hj : j = i
      · subst hj
        exact replica.resolve_right fun hr => hr.1 h
      · exact frame.stale j hj h
  | idle i frame _ _ _ _ replica =>
      by_cases hj : j = i
      · subst hj
        exact replica.resolve_right fun hr => hr.1 h
      · exact frame.stale j hj h
  | reload i frame =>
      have hj : j ≠ i := by
        rintro rfl
        exact hl rfl
      exact frame.stale j hj h

/-- Only an edit makes a new pending operation. -/
theorem Step.pending (hs : Step apply n n' l) {a : ο} (ha : n'.Pending j a) : n.Pending j a ∨
    l = .edit j a ∧ n'.ready = n.ready ∧ ∀ k, k ≠ j → n'.outbox k = n.outbox k := by
  have same : ∀ {i : ι}, Frame n n' i → n'.ready = n.ready → (∀ b, b ∈ n'.outbox i → b ∈ n.outbox i) →
      n.Pending j a := by
    intro i frame ready outbox
    refine ha.imp (fun h => ?_) fun h => ready ▸ h
    by_cases hj : j = i
    · exact hj ▸ outbox a (hj ▸ h)
    · exact frame.outbox j hj ▸ h
  cases hs with
  | edit i o frame master ready inbox outbox replica =>
      by_cases hj : j = i
      · subst hj
        rcases ha with ha | ha
        · rw [outbox, List.mem_append, List.mem_singleton] at ha
          rcases ha with ha | rfl
          · exact Or.inl (Or.inl ha)
          · exact Or.inr ⟨rfl, ready, frame.outbox⟩
        · exact Or.inl (Or.inr (ready ▸ ha))
      · exact Or.inl (ha.imp (fun h => frame.outbox j hj ▸ h) fun h => ready ▸ h)
  | commit i o frame outbox master ready inbox replica stale =>
      left
      rcases ha with ha | ha
      · left
        by_cases hj : j = i
        · subst hj
          rw [outbox]
          exact List.mem_cons_of_mem _ ha
        · exact frame.outbox j hj ▸ ha
      · rw [ready, List.mem_append, List.mem_singleton] at ha
        rcases ha with ha | ha
        · exact Or.inr ha
        · cases ha
          exact Or.inl (outbox ▸ List.mem_cons_self)
  | refuse i o frame outbox master ready inbox stale =>
      exact Or.inl (same frame ready fun b hb => outbox ▸ List.mem_cons_of_mem _ hb)
  | publish i o before after first ready ready' master replica outbox inbox stale =>
      refine Or.inl (ha.imp (fun h => congrFun outbox j ▸ h) fun h => ?_)
      rw [ready', List.mem_append] at h
      rw [ready, List.mem_append, List.mem_cons]
      exact h.imp_right Or.inr
  | deliver i o frame master ready inbox others outbox replica => exact Or.inl (same frame ready fun b hb => outbox ▸ hb)
  | idle i frame master ready inbox outbox replica => exact Or.inl (same frame ready fun b hb => outbox ▸ hb)
  | reload i frame master ready inbox outbox => exact Or.inl (same frame ready fun b hb => outbox ▸ hb)

theorem Inv.step (h : Inv apply n) (hs : Step apply n n' l) (hl : Uncrossed apply n n' l) : Inv apply n' := by
  refine ⟨h.coherent_step hs hl, fun i j hij a b ha hb => ?_⟩
  rcases hs.pending ha with ha' | ⟨rfl, hready, hout⟩
  · rcases hs.pending hb with hb' | ⟨rfl, hready, hout⟩
    · exact h.independent i j hij a b ha' hb'
    · exact hl.2 i hij a ha'
  · have hb' : n.Pending j b := hb.imp (fun h => hout j hij.symm ▸ h) fun h => hready ▸ h
    exact (hl.2 j hij.symm b hb').symm

/-- When nothing is on its way to or from a peer that is not stale, its replica is the master. -/
theorem Inv.replica_eq (h : Inv apply n) (hst : ¬n.stale i) (outbox : n.outbox i = []) (ready : n.ready = [])
    (inbox : n.inbox i = []) : n.replica i = n.master := by
  have hc := (h.coherent i).resolve_left hst
  rw [Coherent, outbox, inbox, unseen, ready] at hc
  exact hc

/-! ## Registers

An operation that overwrites the whole state commutes with nothing but itself. What counts is which one comes last. -/

/-- The operations of the peer that have not been passed on, in its order. -/
def own (n : Net ι σ ο) (i : ι) : List ο := (n.ready.filter fun e => e.1 = i).map Prod.snd ++ n.outbox i

/-- An edit agrees with the last operation of every other peer that has not been passed on, or else with the last one on
its way to the peer. -/
def Alike (n : Net ι σ σ) : Label ι σ → Prop
  | .edit i v => (∀ j, j ≠ i → ∀ u ∈ (n.own j).getLast?, u = v) ∧
      ((∀ j, j ≠ i → n.own j = []) → ∀ u ∈ (n.inbox i).getLast?, u = v)
  | .traffic => True
  | _ => False

/-- Everything that is under way ends in `v`. -/
structure Settles (n : Net ι σ σ) (v : σ) : Prop where
  own : ∀ i, ∀ u ∈ (n.own i).getLast?, u = v
  replica : ∀ i, n.stale i ∨ (∃ j, j ≠ i ∧ n.own j ≠ []) ∨ (n.replica i :: n.inbox i).getLast? = some v
  master : (∃ i, n.outbox i ≠ []) ∨ n.master = v

theorem own_congr (ready : n'.ready = n.ready) (outbox : n'.outbox i = n.outbox i) : n'.own i = n.own i := by
  rw [own, ready, outbox, own]

/-- A step that carries nothing out on the master and sends nothing. -/
theorem Frame.unsent (frame : Frame n n' i) (ready : n'.ready = n.ready) (outbox : n'.outbox i = n.outbox i) :
    n'.outbox = n.outbox ∧ n'.own = n.own := by
  have hout : n'.outbox = n.outbox := by
    funext j
    by_cases hj : j = i
    · exact hj ▸ outbox
    · exact frame.outbox j hj
  exact ⟨hout, funext fun j => own_congr ready (congrFun hout j)⟩

/-- A step that leaves `own` alone, the replicas of all but one peer and their inboxes. -/
theorem Settles.keep {v : σ} {n n' : Net ι σ σ} (h : n.Settles v) (own : n'.own = n.own) (frame : Frame n n' i)
    (inbox : ∀ j, j ≠ i → n'.inbox j = n.inbox j) (hj : j ≠ i) :
    n'.stale j ∨ (∃ k, k ≠ j ∧ n'.own k ≠ []) ∨ (n'.replica j :: n'.inbox j).getLast? = some v := by
  rw [own, frame.replica j hj, inbox j hj]
  exact (h.replica j).imp_left (frame.stale j hj)

theorem Settles.step {v : σ} {n n' : Net ι σ σ} {l : Label ι σ} (h : n.Settles v) (hs : Step (fun o _ => o) n n' l)
    (hl : n.Alike l) : ∃ w, n'.Settles w := by
  cases hs with
  | edit i o frame master ready inbox outbox replica =>
      have hown : n'.own i = n.own i ++ [o] := by rw [Net.own, ready, outbox, ← List.append_assoc, ← Net.own]
      have hrest : ∀ j, j ≠ i → n'.own j = n.own j := fun j hj => own_congr ready (frame.outbox j hj)
      refine ⟨o, fun j => ?_, fun j => ?_, Or.inl ⟨i, by simp [outbox]⟩⟩
      · by_cases hj : j = i
        · subst hj
          simp [hown]
        · rw [hrest j hj]
          exact hl.1 j hj
      · by_cases hj : j = i
        · subst hj
          refine replica.imp_right fun ⟨_, hrep⟩ => ?_
          by_cases hother : ∃ k, k ≠ j ∧ n.own k ≠ []
          · obtain ⟨k, hk, hne⟩ := hother
            exact Or.inl ⟨k, hk, by rwa [hrest k hk]⟩
          · right
            have hlast := hl.2 fun k hk => by_contra fun hne => hother ⟨k, hk, hne⟩
            rw [hrep, inbox, List.getLast?_cons]
            cases hin : (n.inbox j).getLast? with
            | none => rfl
            | some u => simp [hlast u hin]
        · exact Or.inr (Or.inl ⟨i, Ne.symm hj, by simp [hown]⟩)
  | commit i o frame outbox master ready inbox replica stale =>
      have hown : n'.own = n.own := by
        funext j
        by_cases hj : j = i
        · subst hj
          simp [Net.own, ready, outbox]
        · simp [Net.own, ready, frame.outbox j hj, Ne.symm hj]
      refine ⟨v, fun j => by rw [hown]; exact h.own j, fun j => ?_, ?_⟩
      · by_cases hj : j = i
        · subst hj
          rw [hown, replica, inbox]
          exact (h.replica j).imp_left stale
        · exact h.keep hown frame (fun j _ => congrFun inbox j) hj
      · by_cases hne : n'.outbox i = []
        · rw [master]
          right
          refine h.own i o ?_
          rw [Net.own, outbox, hne, List.getLast?_concat]
          rfl
        · exact Or.inl ⟨i, hne⟩
  | refuse => exact hl.elim
  | publish i o before after first ready ready' master replica outbox inbox stale =>
      have hbefore : before.filter (fun e => e.1 = i) = [] :=
        List.filter_eq_nil_iff.mpr fun e he => by simpa using first e he
      have hown : n.own i = o :: n'.own i := by simp [Net.own, ready, ready', outbox, hbefore]
      have hrest : ∀ j, j ≠ i → n'.own j = n.own j := by
        intro j hj
        simp [Net.own, ready, ready', outbox, Ne.symm hj]
      refine ⟨v, fun j => ?_, fun j => ?_, by rw [master, outbox]; exact h.master⟩
      · by_cases hj : j = i
        · subst hj
          intro u hu
          refine h.own j u ?_
          rw [hown, List.getLast?_cons, hu]
          rfl
        · rw [hrest j hj]
          exact h.own j
      · rcases inbox j with hst | hin
        · exact Or.inl hst
        · by_cases hj : j = i
          · subst hj
            rw [replica, hin, if_pos rfl]
            refine (h.replica j).imp (stale j) (Or.imp_left ?_)
            rintro ⟨k, hk, hne⟩
            exact ⟨k, hk, by rwa [hrest k hk]⟩
          · right
            by_cases hlast : n'.own i = []
            · right
              rw [hlast] at hown
              rw [hin, if_neg hj, ← List.cons_append, List.getLast?_concat, h.own i o (by rw [hown]; rfl)]
            · exact Or.inl ⟨i, Ne.symm hj, hlast⟩
  | deliver i o frame master ready inbox others outbox replica =>
      obtain ⟨hout, hown⟩ := frame.unsent ready outbox
      refine ⟨v, fun j => by rw [hown]; exact h.own j, fun j => ?_, by rw [master, hout]; exact h.master⟩
      by_cases hj : j = i
      · subst hj
        refine replica.imp_right fun ⟨hst, hrep⟩ => ?_
        have hr := (h.replica j).resolve_left hst
        rw [inbox, List.getLast?_cons_cons] at hr
        rw [hown, hrep]
        exact hr
      · exact h.keep hown frame others hj
  | idle i frame master ready inbox outbox replica =>
      obtain ⟨hout, hown⟩ := frame.unsent ready outbox
      refine ⟨v, fun j => by rw [hown]; exact h.own j, fun j => ?_, by rw [master, hout]; exact h.master⟩
      by_cases hj : j = i
      · subst hj
        refine replica.imp_right fun ⟨hst, hrep⟩ => ?_
        rw [hown, hrep, inbox]
        exact (h.replica j).resolve_left hst
      · exact h.keep hown frame (fun j _ => congrFun inbox j) hj
  | reload => exact hl.elim

theorem Settles.replica_eq {v : σ} {n : Net ι σ σ} (h : n.Settles v) (hst : ¬n.stale i)
    (outbox : ∀ j, n.outbox j = []) (ready : n.ready = []) (inbox : n.inbox i = []) : n.replica i = n.master := by
  have hm : n.master = v := h.master.resolve_left fun ⟨j, hj⟩ => hj (outbox j)
  have hr : (∃ j, j ≠ i ∧ n.own j ≠ []) ∨ (n.replica i :: n.inbox i).getLast? = some v :=
    (h.replica i).resolve_left hst
  have hown : ∀ j, n.own j = [] := fun j => by simp [Net.own, ready, outbox]
  rw [inbox] at hr
  rcases hr with ⟨j, -, hj⟩ | hr
  · exact absurd (hown j) hj
  · rw [hm]
    exact Option.some.inj hr

end Net

end Chessrepeat.Lib
