import Chessrepeat.Client.Loaders

/-!
# Whose chapters the loaders install

Between `setRepertoire` and `setRepertoireAuthor` of `viewUserRepertoire` the chapters are of one author and the name is
that of another. While no such call is under way, the two go together.
-/

namespace Chessrepeat.Client.Loading

open Lib

variable {Raw C : Type} {loader : Loader Raw C} {s : Loading C}

/-- The chapters are those a request returned for the author; those of nobody, only while nobody is signed in. -/
def Belongs (s : Loading C) : Prop :=
  (s.repertoireAuthor, s.repertoire) ∈ s.returned ∧ (s.repertoireAuthor = none → s.user = none)

/-- The call waits for a response, reads IndexedDB or has still to set the author. -/
def Call.outstanding : Call C → Bool
  | .fetch _ | .view _ | .login | .hydrate | .hydrating _ _ => true
  | .persist _ author => author.isSome
  | .add _ | .added _ | .listed _ => false

/-- No request is outstanding. -/
def Idle (s : Loading C) : Prop := ∀ c ∈ s.calls, Call.outstanding c = false

/-- A call has still to set its author. -/
def Switching (s : Loading C) : Prop := ∃ writes author, Call.persist writes (some author) ∈ s.calls

/-- The chapters are those of whoever a call has still to set as the author; with no such call, of the author. -/
structure Kept (s : Loading C) : Prop where
  switching : ∀ writes author, Call.persist writes (some author) ∈ s.calls → (some author, s.repertoire) ∈ s.returned
  belongs : ¬s.Switching → s.Belongs

theorem Idle.not_switching (h : s.Idle) : ¬s.Switching := by
  rintro ⟨writes, author, hmem⟩
  exact absurd (h _ hmem) nofun

theorem Kept.initial (idb : Idb C) : (Loading.initial idb).Kept where
  switching _ _ h := nomatch h
  belongs _ := ⟨List.mem_singleton_self _, fun _ => rfl⟩

/-- Nothing but the calls and IndexedDB has changed, and no call that sets the author has gone or come. -/
theorem Kept.of_calls {t : Loading C} (h : s.Kept) (hr : t.repertoire = s.repertoire)
    (ha : t.repertoireAuthor = s.repertoireAuthor) (hu : t.user = s.user) (ht : t.returned = s.returned)
    (hc : ∀ author, (∃ writes, Call.persist writes (some author) ∈ t.calls) ↔
      ∃ writes, Call.persist writes (some author) ∈ s.calls) : t.Kept where
  switching writes author hmem := by
    obtain ⟨writes, hmem⟩ := (hc author).mp ⟨writes, hmem⟩
    rw [hr, ht]
    exact h.switching writes author hmem
  belongs hswitching := by
    have hs : ¬s.Switching := by
      rintro ⟨writes, author, hmem⟩
      obtain ⟨writes, hmem⟩ := (hc author).mpr ⟨writes, hmem⟩
      exact hswitching ⟨writes, author, hmem⟩
    have hbelongs := h.belongs hs
    rwa [Belongs, hr, ha, hu, ht]

/-- A call that sets no author. -/
def Plain (c : Call C) : Prop := ∀ writes author, c ≠ .persist writes (some author)

theorem Kept.call {c : Call C} (h : s.Kept) (hc : Plain c) : (s.call c).Kept := by
  refine h.of_calls rfl rfl rfl rfl fun author => ⟨?_, ?_⟩
  · rintro ⟨writes, hmem⟩
    rcases List.mem_append.mp hmem with hmem | hmem
    · exact ⟨writes, hmem⟩
    · exact absurd (List.mem_singleton.mp hmem).symm (hc writes author)
  · rintro ⟨writes, hmem⟩
    exact ⟨writes, List.mem_append_left _ hmem⟩

/-- A call that sets no author is taken up. -/
theorem Kept.resumed {c : Call C} {k : Nat} (h : s.Kept) (hk : s.calls[k]? = some c) (hc : Plain c) :
    Kept { s with calls := s.calls.eraseIdx k } := by
  refine h.of_calls rfl rfl rfl rfl fun author => ⟨?_, ?_⟩
  · rintro ⟨writes, hmem⟩
    exact ⟨writes, List.mem_of_mem_eraseIdx hmem⟩
  · rintro ⟨writes, hmem⟩
    obtain ⟨i, hi, heq⟩ := List.getElem_of_mem hmem
    refine ⟨writes, List.mem_eraseIdx_iff_getElem?.mpr ⟨i, ?_, ?_⟩⟩
    · rintro rfl
      rw [List.getElem?_eq_getElem hi, heq] at hk
      exact hc writes author (Option.some.inj hk).symm
    · rw [List.getElem?_eq_getElem hi, heq]

/-! ## What is left of a call -/

theorem Kept.of_lone (hs : ¬s.Switching) (hr : s.Belongs) : s.Kept where
  switching writes author hmem := absurd ⟨writes, author, hmem⟩ hs
  belongs _ := hr

theorem not_switching_append {c : Call C} (hs : ¬s.Switching) (hc : Plain c) : ¬(s.call c).Switching := by
  rintro ⟨writes, author, hmem⟩
  rcases List.mem_append.mp hmem with hmem | hmem
  · exact hs ⟨writes, author, hmem⟩
  · exact hc writes author (List.mem_singleton.mp hmem).symm

/-- Chapters that were returned for the author are installed. -/
theorem Kept.setRepertoire {chapters : List C} (hs : ¬s.Switching)
    (hr : (s.repertoireAuthor, chapters) ∈ s.returned) (hu : s.repertoireAuthor = none → s.user = none) :
    (s.setRepertoire loader chapters none).Kept :=
  Kept.of_lone (not_switching_append (s := { s with repertoire := chapters }) hs nofun) ⟨hr, hu⟩

/-- Chapters of someone else are installed, and the call has still to set the author. -/
theorem Kept.setRepertoire_some {chapters : List C} {author : JsString} (hs : ¬s.Switching)
    (hr : (some author, chapters) ∈ s.returned) : (s.setRepertoire loader chapters (some author)).Kept where
  switching writes author' hmem := by
    rcases List.mem_append.mp hmem with hmem | hmem
    · exact absurd ⟨writes, author', hmem⟩ hs
    · cases List.mem_singleton.mp hmem
      exact hr
  belongs hswitching := absurd ⟨_, author, List.mem_append_right _ (List.mem_singleton_self _)⟩ hswitching

/-- What a call that is taken up leaves behind, is among the calls there were. -/
theorem switching_of_eraseIdx {k : Nat} (h : Switching { s with calls := s.calls.eraseIdx k }) : s.Switching := by
  obtain ⟨writes, author, hmem⟩ := h
  exact ⟨writes, author, List.mem_of_mem_eraseIdx hmem⟩

theorem mem_eraseIdx_or {c c' : Call C} {k : Nat} (hk : s.calls[k]? = some c) (hmem : c' ∈ s.calls) :
    c' = c ∨ c' ∈ s.calls.eraseIdx k := by
  obtain ⟨i, hi, heq⟩ := List.getElem_of_mem hmem
  by_cases hik : i = k
  · subst hik
    rw [List.getElem?_eq_getElem hi, heq] at hk
    exact .inl (Option.some.inj hk)
  · exact .inr (List.mem_eraseIdx_iff_getElem?.mpr ⟨i, hik, by rw [List.getElem?_eq_getElem hi, heq]⟩)

/-- One write of `persistAllChapters` is made. -/
theorem Kept.persisted {k : Nat} {w : Write C} {ws : List (Write C)} {author : Option JsString} {idb : Idb C}
    (h : s.Kept) (hk : s.calls[k]? = some (.persist (w :: ws) author)) :
    (Loading.call { s with calls := s.calls.eraseIdx k, idb } (.persist ws author)).Kept := by
  refine h.of_calls rfl rfl rfl rfl fun author' => ⟨?_, ?_⟩
  · rintro ⟨writes, hmem⟩
    rcases List.mem_append.mp hmem with hmem | hmem
    · exact ⟨writes, List.mem_of_mem_eraseIdx hmem⟩
    · cases List.mem_singleton.mp hmem
      exact ⟨w :: ws, List.mem_of_getElem? hk⟩
  · rintro ⟨writes, hmem⟩
    rcases mem_eraseIdx_or hk hmem with heq | hmem
    · cases heq
      exact ⟨ws, List.mem_append_right _ (List.mem_singleton_self _)⟩
    · exact ⟨writes, List.mem_append_left _ hmem⟩

/-- The author is set at last. -/
theorem Kept.authored {k : Nat} {author : JsString} (h : s.Kept)
    (hk : s.calls[k]? = some (.persist [] (some author))) :
    (setRepertoireAuthor { s with calls := s.calls.eraseIdx k } (some author)).Kept where
  switching writes author' hmem := h.switching writes author' (List.mem_of_mem_eraseIdx hmem)
  belongs _ := ⟨h.switching [] author (List.mem_of_getElem? hk), nofun⟩

/-! ## Calls in turn -/

/-- Nobody is signed in and no author is set. -/
def Nobody (s : Loading C) : Prop := s.user = none ∧ s.repertoireAuthor = none

/-- A call that is about to install chapters does so for the author there is: no other call has still to set its
author, and `fetchRepertoire` finds the author for whom it asked. -/
def InTurn (loader : Loader Raw C) (s : Loading C) : LoadAction Raw → Prop
  | .resume k response => match s.calls[k]?, response with
    | some (.fetch author), some r =>
        ¬s.Switching ∧ match author with
          | some author => s.repertoireAuthor = some author
          | none => (truthy r.username).isSome
    | some (.view _), some _ => ¬s.Switching
    | some .login, some r => ¬s.Switching ∧ r.username ≠ some []
    | some .hydrate, _ =>
        s.idb.readChapterIds = [] → loader.exampleChapter.isSome → ¬s.Switching ∧ s.Nobody ∧ s.repertoire = []
    | some (.hydrating [_] _), _ => ¬s.Switching ∧ s.Nobody
    | _, _ => True
  | _ => True

/-- The chapters go together with the author that is set just before. -/
theorem Kept.fetched {author : Option JsString} {r : Response Raw} (hs : ¬s.Switching)
    (h : match author with
      | some author => s.repertoireAuthor = some author
      | none => (truthy r.username).isSome) :
    (s.fetched loader author r).Kept := by
  cases author with
  | some author =>
      refine Kept.setRepertoire hs (List.mem_append_right _ (List.mem_singleton.mpr ?_)) fun hnone => ?_
      · exact Prod.ext h rfl
      · exact absurd (h.symm.trans hnone) nofun
  | none =>
      obtain ⟨username, husername⟩ := Option.isSome_iff_exists.mp h
      have hr : r.username = some username := (Option.filter_eq_some_iff.mp husername).1
      simp only [Loading.fetched, husername]
      refine Kept.setRepertoire hs (List.mem_append_right _ (List.mem_singleton.mpr ?_)) nofun
      rw [hr]
      rfl

theorem Kept.viewed {username : JsString} {r : Response Raw} (hs : ¬s.Switching) :
    (s.viewed loader username r).Kept :=
  Kept.setRepertoire_some hs (List.mem_append_right _ (List.mem_singleton_self _))

theorem Kept.applyLoginResponse {r : Response Raw} (h : s.Kept) (hs : ¬s.Switching) (hr : r.username ≠ some []) :
    (s.applyLoginResponse loader r).Kept := by
  cases hu : r.username with
  | none =>
      simp only [Loading.applyLoginResponse, hu]
      exact h
  | some username =>
      have hne : username ≠ [] := fun hnil => hr (hu.trans (congrArg some hnil))
      simp only [Loading.applyLoginResponse, hu, if_neg hne]
      -- the author is set right after the chapters, as if it had been set before
      exact Kept.setRepertoire (s := (((s.setUser (some username)).record (some username)
        (loader.parseChapters (some username) r.chapters)).setRepertoireAuthor (some username))) hs
        (List.mem_append_right _ (List.mem_singleton_self _)) nofun

/-- The chapters of nobody are installed. -/
theorem Kept.nobody {chapters : List C} (hs : ¬s.Switching) (h : s.Nobody) :
    Kept { s.record none chapters with repertoire := chapters } := by
  refine Kept.of_lone hs ⟨List.mem_append_right _ (List.mem_singleton.mpr ?_), fun _ => h.1⟩
  exact Prod.ext h.2 rfl

theorem Kept.hydrate (h : s.Kept)
    (hc : s.idb.readChapterIds = [] → loader.exampleChapter.isSome → ¬s.Switching ∧ s.Nobody ∧ s.repertoire = []) :
    (s.hydrate loader).Kept := by
  rw [Loading.hydrate]
  split
  · rename_i hids
    split
    · exact h
    · rename_i c hexample
      obtain ⟨hs, hnobody, hempty⟩ := hc hids (Option.isSome_iff_exists.mpr ⟨c, hexample⟩)
      have hkept : Kept { s.record none [c] with repertoire := c :: s.repertoire } := by
        rw [hempty]
        exact Kept.nobody hs hnobody
      rw [addExample]
      split
      · exact hkept
      · exact hkept.call nofun
  · exact h.call nofun

theorem Kept.readOne {ids : List JsString} {chapters : List C} (h : s.Kept)
    (hc : ∀ id, ids = [id] → ¬s.Switching ∧ s.Nobody) : (s.readOne loader ids chapters).Kept := by
  match ids with
  | [] => exact h
  | [id] => exact Kept.nobody (hc id rfl).1 (hc id rfl).2
  | id :: id' :: ids => exact h.call nofun

theorem Kept.step {a : LoadAction Raw} (h : s.Kept) (hc : InTurn loader s a) : (s.step loader a).Kept := by
  cases a with
  | fetchRepertoire => exact h.call nofun
  | viewUserRepertoire username => exact h.call nofun
  | login => exact h.call nofun
  | hydrateRepertoireFromIDB =>
      rw [Loading.step]
      split
      · exact h.call nofun
      · exact h
  | resume k response =>
      rw [Loading.step]
      split
      · exact h
      · rename_i c hk
        have hs (ht : ¬s.Switching) : ¬Switching { s with calls := s.calls.eraseIdx k } :=
          fun hswitching => ht (switching_of_eraseIdx hswitching)
        simp only [InTurn, hk] at hc
        cases c with
        | fetch author =>
            have hkept := h.resumed hk nofun
            cases response with
            | none => exact hkept
            | some r => exact Kept.fetched (hs hc.1) hc.2
        | view username =>
            have hkept := h.resumed hk nofun
            cases response with
            | none => exact hkept
            | some r => exact Kept.viewed (hs hc)
        | login =>
            have hkept := h.resumed hk nofun
            cases response with
            | none => exact hkept
            | some r => exact hkept.applyLoginResponse (hs hc.1) hc.2
        | persist writes author =>
            cases writes with
            | cons w ws => exact h.persisted hk
            | nil =>
                cases author with
                | none => exact h.resumed hk nofun
                | some author => exact h.authored hk
        | hydrate =>
            have hkept := h.resumed hk nofun
            exact hkept.hydrate fun hids hexample => (hc hids hexample).imp_left hs
        | hydrating ids chapters =>
            have hkept := h.resumed hk nofun
            refine hkept.readOne fun id hid => ?_
            subst hid
            exact hc.imp_left hs
        | add c =>
            have hkept : Kept { s with
                calls := s.calls.eraseIdx k, idb := s.idb.writeChapter (loader.uuid c) c } :=
              (h.resumed hk nofun).of_calls rfl rfl rfl rfl fun _ => Iff.rfl
            rw [go]
            exact hkept.call nofun
        | added c =>
            rw [go]
            split
            · exact h.resumed hk nofun
            · exact (h.resumed hk nofun).call nofun
        | listed ids =>
            rw [go]
            exact (h.resumed hk nofun).of_calls rfl rfl rfl rfl fun _ => Iff.rfl

end Chessrepeat.Client.Loading
