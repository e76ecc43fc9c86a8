import Chessrepeat.Hooks.Hotkeys
import Mathlib.Data.List.Basic

/-!
# The keyboard shortcuts

The names before a key come off a combo again, and a combo is bound at most once.
-/

namespace Chessrepeat.Hooks

open Lib

/-! ## Combos -/

/-- A key that can stand at the end of a combo. -/
def Bare (key : JsString) : Prop := key ≠ [] ∧ (key = [plusUnit] ∨ plusUnit ∉ key)

theorem joinPlus_ne_nil {parts : List JsString} {key : JsString} (hk : key ≠ []) : joinPlus (parts ++ [key]) ≠ [] := by
  cases parts with
  | nil => simpa [joinPlus] using hk
  | cons m ms =>
      rw [joinPlus, List.cons_append, List.intercalate_cons_of_ne_nil (by simp)]
      simp

theorem joinPlus_cons (m : JsString) (ms : List JsString) (key : JsString) :
    joinPlus (m :: ms ++ [key]) = m ++ [plusUnit] ++ joinPlus (ms ++ [key]) := by
  rw [joinPlus, List.cons_append, List.intercalate_cons_of_ne_nil (by simp), joinPlus, List.append_assoc]

/-- Two names with a plus sign after them are not the one a prefix of the other. -/
theorem eq_of_prefix {a b rest : JsString} (ha : plusUnit ∉ a) (hb : plusUnit ∉ b)
    (h : (a ++ [plusUnit]).isPrefixOf (b ++ [plusUnit] ++ rest) = true) : a = b := by
  obtain ⟨t, ht⟩ := List.isPrefixOf_iff_prefix.mp h
  rw [List.append_assoc, List.append_assoc, List.singleton_append, List.singleton_append] at ht
  induction a generalizing b with
  | nil =>
      cases b with
      | nil => rfl
      | cons v b => exact absurd (List.cons.inj ht).1 fun hv => hb (hv ▸ List.mem_cons_self)
  | cons u a ih =>
      cases b with
      | nil => exact absurd (List.cons.inj ht).1 fun hu => ha (hu ▸ List.mem_cons_self)
      | cons v b =>
          obtain ⟨rfl, ht'⟩ := List.cons.inj ht
          exact congrArg (u :: ·) (ih (fun hm => ha (List.mem_cons_of_mem u hm)) (fun hm => hb (List.mem_cons_of_mem u hm))
            (List.isPrefixOf_iff_prefix.mpr ⟨t, by simpa using ht'⟩) ht')

/-- A key does not begin with a name and a plus sign. -/
theorem not_prefix_key {mod key : JsString} (hm : mod ≠ []) (hk : Bare key) :
    ¬ (mod ++ [plusUnit]).isPrefixOf key = true := by
  intro h
  have hp := List.isPrefixOf_iff_prefix.mp h
  rcases hk.2 with rfl | hk
  · have hle := hp.length_le
    have hpos : 0 < mod.length := List.length_pos_iff.mpr hm
    rw [List.length_append, List.length_singleton] at hle
    omega
  · exact hk (hp.subset (List.mem_append_right mod List.mem_cons_self))

/-- The names that are there come off the front, in their order. -/
theorem splitMods_joinPlus {mods parts : List JsString} {key : JsString} (hs : parts.Sublist mods) (hn : mods.Nodup)
    (hm : ∀ mod ∈ mods, mod ≠ [] ∧ plusUnit ∉ mod) (hk : Bare key) :
    splitMods mods (joinPlus (parts ++ [key])) = parts ++ [key] := by
  induction mods generalizing parts with
  | nil =>
      obtain rfl := List.sublist_nil.mp hs
      simp [splitMods, joinPlus]
  | cons mod mods ih =>
      have hrest := fun m hm' => hm m (List.mem_cons_of_mem mod hm')
      obtain ⟨hne, hplus⟩ := hm mod List.mem_cons_self
      rw [splitMods]
      by_cases hin : ∃ ps, parts = mod :: ps
      · obtain ⟨ps, rfl⟩ := hin
        have hjoin : joinPlus (ps ++ [key]) ≠ [] := joinPlus_ne_nil hk.1
        have hlen : 0 < (joinPlus (ps ++ [key])).length := List.length_pos_iff.mpr hjoin
        rw [joinPlus_cons, if_pos ⟨by simp, by simp; omega⟩]
        have hdrop : (mod ++ [plusUnit] ++ joinPlus (ps ++ [key])).drop (mod.length + 1) = joinPlus (ps ++ [key]) := by
          rw [show mod.length + 1 = (mod ++ [plusUnit]).length by simp, List.drop_left]
        rw [hdrop, ih (List.cons_sublist_cons.mp hs) hn.of_cons hrest]
        rfl
      · have hs' : parts.Sublist mods := by
          rcases List.sublist_cons_iff.mp hs with h | ⟨ps, rfl, -⟩
          · exact h
          · exact absurd ⟨ps, rfl⟩ hin
        have hno : ¬ (mod ++ [plusUnit]).isPrefixOf (joinPlus (parts ++ [key])) = true := by
          cases parts with
          | nil =>
              have := not_prefix_key hne hk
              simpa [joinPlus] using this
          | cons m ms =>
              rw [joinPlus_cons]
              intro h
              have hmem : m ∈ mods := hs'.subset List.mem_cons_self
              obtain rfl := eq_of_prefix hplus (hrest m hmem).2 h
              exact (List.nodup_cons.mp hn).1 hmem
        rw [if_neg fun h => hno h.1]
        exact ih hs' hn.of_cons hrest

theorem modNames_plain : modNames.Nodup ∧ ∀ mod ∈ modNames, mod ≠ [] ∧ plusUnit ∉ mod := by decide

namespace KeyEvent

variable {case : Casing} {e : KeyEvent} {combo : JsString}

theorem Named.bare_named (h : e.Named) : Hooks.Bare e.named := by
  rw [named]
  split
  · exact ⟨by decide, Or.inr (by decide)⟩
  · exact h

theorem Named.bare (hc : case.Plain) (h : e.Named) : Hooks.Bare (e.bare case) := by
  rw [KeyEvent.bare]
  split
  · rename_i hl
    rw [isLetter, Bool.and_eq_true, decide_eq_true_eq] at hl
    obtain ⟨u, hu⟩ := List.length_eq_one_iff.mp (of_decide_eq_true hl.1)
    rw [hu] at hl ⊢
    exact ⟨(hc u hl.2).1, Or.inr (hc u hl.2).2⟩
  · exact h.bare_named

theorem mods_sublist : (e.mods case).Sublist modNames := by
  have h : ∀ (b : Bool) (m : JsString), (if b then [m] else []).Sublist [m] := by
    intro b m
    cases b
    · exact List.nil_sublist [m]
    · exact List.Sublist.refl [m]
  exact (((h e.ctrlKey _).append (h e.altKey _)).append (h e.metaKey _)).append (h _ _)

/-- The parts of a combo are the modifiers that were held and the key. -/
theorem splitMods_combo (hc : case.Plain) (he : e.Named) (h : e.comboFromEvent case = some combo) :
    splitMods modNames combo = e.mods case ++ [e.bare case] := by
  rw [comboFromEvent] at h
  split at h
  · cases h
  · obtain rfl := Option.some.inj h
    exact splitMods_joinPlus mods_sublist modNames_plain.1 modNames_plain.2 (he.bare hc)

theorem mem_mods {mod : JsString} : mod ∈ e.mods case ↔
    (mod = js "ctrl" ∧ e.ctrlKey = true) ∨ (mod = js "alt" ∧ e.altKey = true) ∨
      (mod = js "meta" ∧ e.metaKey = true) ∨ mod = js "shift" ∧ e.marked case = true := by
  have h : ∀ (b : Bool) (m : JsString), mod ∈ (if b then [m] else []) ↔ mod = m ∧ b = true := by
    intro b m
    cases b <;> simp
  simp only [mods, List.mem_append, h, or_assoc]

/-- The parts are different names, so they tell which modifiers were held. -/
theorem chord_eq_iff {e' : KeyEvent} :
    e'.chord case = e.chord case ↔ e'.mods case = e.mods case ∧ e'.bare case = e.bare case := by
  constructor
  · intro h
    simp only [chord, Prod.mk.injEq] at h
    obtain ⟨hctrl, halt, hmeta, hshift, hbare⟩ := h
    exact ⟨by rw [mods, mods, hctrl, halt, hmeta, hshift], hbare⟩
  · rintro ⟨hmods, hbare⟩
    have hmem : ∀ mod, mod ∈ e'.mods case ↔ mod ∈ e.mods case := fun mod => by rw [hmods]
    have hctrl := hmem (js "ctrl")
    have halt := hmem (js "alt")
    have hmeta := hmem (js "meta")
    have hshift := hmem (js "shift")
    simp only [mem_mods, show js "ctrl" ≠ js "alt" by decide, show js "ctrl" ≠ js "meta" by decide,
      show js "ctrl" ≠ js "shift" by decide, true_and, false_and, or_false] at hctrl
    simp only [mem_mods, show js "alt" ≠ js "ctrl" by decide, show js "alt" ≠ js "meta" by decide,
      show js "alt" ≠ js "shift" by decide, true_and, false_and, or_false, false_or] at halt
    simp only [mem_mods, show js "meta" ≠ js "ctrl" by decide, show js "meta" ≠ js "alt" by decide,
      show js "meta" ≠ js "shift" by decide, true_and, false_and, or_false, false_or] at hmeta
    simp only [mem_mods, show js "shift" ≠ js "ctrl" by decide, show js "shift" ≠ js "alt" by decide,
      show js "shift" ≠ js "meta" by decide, true_and, false_and, false_or] at hshift
    simp only [chord, Prod.mk.injEq]
    exact ⟨Bool.eq_iff_iff.mpr hctrl, Bool.eq_iff_iff.mpr halt, Bool.eq_iff_iff.mpr hmeta, Bool.eq_iff_iff.mpr hshift,
      hbare⟩

/-- Keydowns have the same combo only if the combo's parts are the same. -/
theorem combo_eq_iff {e' : KeyEvent} (hc : case.Plain) (he : e.Named) (he' : e'.Named) (hk' : e'.key ∉ modifierKeys)
    (h : e.comboFromEvent case = some combo) :
    e'.comboFromEvent case = some combo ↔ e'.chord case = e.chord case := by
  rw [chord_eq_iff]
  constructor
  · intro h'
    have hparts := (splitMods_combo hc he' h').symm.trans (splitMods_combo hc he h)
    exact ⟨List.append_inj_left' hparts rfl, List.singleton_inj.mp (List.append_inj_right' hparts rfl)⟩
  · rintro ⟨hmods, hbare⟩
    rw [comboFromEvent, if_neg hk', hmods, hbare, ← h, comboFromEvent, if_neg]
    intro hk
    rw [comboFromEvent, if_pos hk] at h
    cases h

end KeyEvent

/-! ## Bindings -/

theorem mem_all (a : HotkeyAction) : a ∈ HotkeyAction.all := by
  cases a <;> decide

/-- The last of the actions that have the combo. -/
theorem foldl_found {ids : List HotkeyAction} {P : HotkeyAction → Prop} [DecidablePred P] {found : Option HotkeyAction}
    {a : HotkeyAction} (ha : P a) (hu : ∀ b, P b → b = a) (hf : ∀ b, found = some b → b = a) :
    ids.foldl (fun found id => if P id then some id else found) found = some a ↔ a ∈ ids ∨ found = some a := by
  induction ids generalizing found with
  | nil => simp
  | cons id ids ih =>
      rw [List.foldl_cons, ih]
      · by_cases hp : P id
        · rw [if_pos hp, hu id hp]
          simp
        · have hne : a ≠ id := fun he => hp (he ▸ ha)
          rw [if_neg hp, List.mem_cons]
          simp [hne]
      · intro b hb
        by_cases hp : P id
        · rw [if_pos hp] at hb
          exact Option.some.inj hb ▸ hu id hp
        · rw [if_neg hp] at hb
          exact hf b hb

theorem foldl_none {ids : List HotkeyAction} {P : HotkeyAction → Prop} [DecidablePred P] (h : ∀ b, ¬ P b) :
    ids.foldl (fun found id => if P id then some id else found) none = none := by
  induction ids with
  | nil => rfl
  | cons id ids ih => rw [List.foldl_cons, if_neg (h id), ih]

theorem truthyCombo_eq_some {combo : Option JsString} {c : JsString} :
    truthyCombo combo = some c ↔ combo = some c ∧ c ≠ [] := by
  cases combo with
  | none => simp [truthyCombo]
  | some c' =>
      rw [truthyCombo, Option.filter_some]
      split
      · rename_i h
        exact ⟨fun he => ⟨he, Option.some.inj he ▸ of_decide_eq_true h⟩, fun he => he.1⟩
      · rename_i h
        exact ⟨nofun, fun he => absurd (decide_eq_true he.2) (Option.some.inj he.1 ▸ h)⟩

theorem Distinct.byCombo_iff {bindings : Bindings} {c : JsString} {a : HotkeyAction} (h : Distinct bindings) :
    byCombo bindings c = some a ↔ truthyCombo (bindings a) = some c := by
  by_cases hb : ∃ b, truthyCombo (bindings b) = some c
  · obtain ⟨b, hb⟩ := hb
    have hstart : ∀ b', (none : Option HotkeyAction) = some b' → b' = b := nofun
    have hfound : byCombo bindings c = some b :=
      (foldl_found hb (fun b' hb' => h b' b c hb' hb) hstart).mpr (Or.inl (mem_all b))
    rw [hfound]
    exact ⟨fun he => Option.some.inj he ▸ hb, fun ha => congrArg some (h b a c hb ha)⟩
  · have hnone : byCombo bindings c = none := foldl_none fun b hb' => hb ⟨b, hb'⟩
    rw [hnone]
    exact ⟨nofun, fun ha => absurd ⟨a, ha⟩ hb⟩

theorem KeyEvent.heard_iff {e : KeyEvent} : e.Heard ↔ (e.prevented || e.composing || e.typing || e.modal) = false := by
  simp only [KeyEvent.Heard, Bool.or_eq_false_iff, and_assoc]

/-- A key that is bound once calls the action it is bound to. -/
theorem Distinct.dispatches {bindings : Bindings} (case : Casing) (h : Distinct bindings) : Dispatches case bindings := by
  intro enabled handled e a
  have hbound : (e.comboFromEvent case).bind (byCombo bindings) = some a ↔
      ∃ c, e.comboFromEvent case = some c ∧ truthyCombo (bindings a) = some c := by
    rw [Option.bind_eq_some_iff]
    exact exists_congr fun c => and_congr_right fun _ => h.byCombo_iff
  rw [← hbound, KeyEvent.heard_iff, onKeyDown]
  cases enabled with
  | false => simp
  | true =>
      rw [if_neg (by simp), and_iff_right rfl]
      cases e.prevented || e.composing || e.typing || e.modal with
      | true => simp
      | false =>
          cases (e.comboFromEvent case).bind (byCombo bindings) with
          | none => simp
          | some b =>
              by_cases hab : b = a
              · subst hab
                cases e.repeated <;> simp [and_comm]
              · simp only [Bool.false_eq_true, if_false, Option.some.injEq, hab, and_false, iff_false]
                intro hcall
                split at hcall
                · cases hcall
                · split at hcall
                  · exact hab (Option.some.inj hcall)
                  · cases hcall

/-- Only actions that have the combo lose it. -/
theorem displace_spec {action : HotkeyAction} {combo : JsString} {ids : List HotkeyAction}
    {out : Bindings × Option HotkeyAction} {id : HotkeyAction} :
    (displace action combo ids out).1 id =
      if id ∈ ids ∧ id ≠ action ∧ out.1 id = some combo then none else out.1 id := by
  induction ids generalizing out with
  | nil => simp [displace]
  | cons j ids ih =>
      rw [displace, ih]
      by_cases hj : j ≠ action ∧ out.1 j = some combo
      · rw [if_pos hj]
        by_cases hid : id = j
        · subst hid
          simp [hj]
        · simp [hid]
      · rw [if_neg hj]
        by_cases hid : id = j
        · subst hid
          simp only [List.mem_cons, true_or, true_and]
          rw [if_neg hj, if_neg fun h => hj h.2]
        · simp [hid]

theorem displace_id {action : HotkeyAction} {combo : JsString} {ids : List HotkeyAction}
    {out : Bindings × Option HotkeyAction} (h : ∀ id ∈ ids, ¬ (id ≠ action ∧ out.1 id = some combo)) :
    displace action combo ids out = out := by
  induction ids with
  | nil => rfl
  | cons id ids ih =>
      rw [displace, if_neg (h id List.mem_cons_self)]
      exact ih fun j hj => h j (List.mem_cons_of_mem id hj)

/-- Where at most one action has the combo, that action is returned. -/
theorem displaced_spec {action : HotkeyAction} {combo : JsString} {ids : List HotkeyAction} {bindings : Bindings}
    {id : HotkeyAction} (hd : ∀ a b, bindings a = some combo → bindings b = some combo → a = b) :
    (displace action combo ids (bindings, none)).2 = some id ↔
      id ∈ ids ∧ id ≠ action ∧ bindings id = some combo := by
  induction ids with
  | nil => simp [displace]
  | cons j ids ih =>
      rw [displace]
      by_cases hj : j ≠ action ∧ bindings j = some combo
      · have hlost : ∀ i ∈ ids, ¬ (i ≠ action ∧ Function.update bindings j none i = some combo) := by
          intro i _ hi
          by_cases hij : i = j
          · simp [hij] at hi
          · rw [Function.update_of_ne hij] at hi
            exact hij (hd i j hi.2 hj.2)
        rw [if_pos hj, displace_id hlost]
        constructor
        · intro he
          obtain rfl := Option.some.inj he
          exact ⟨List.mem_cons_self, hj⟩
        · intro hid
          exact congrArg some (hd j id hj.2 hid.2.2)
      · rw [if_neg hj, ih, List.mem_cons]
        have hid : ¬ (id = j ∧ id ≠ action ∧ bindings id = some combo) := fun h => hj (h.1 ▸ h.2)
        tauto

theorem defaultBindings_distinct : Distinct defaultBindings := by
  intro a b c ha hb
  have h : ∀ a ∈ HotkeyAction.all, ∀ b ∈ HotkeyAction.all,
      truthyCombo (defaultBindings a) = truthyCombo (defaultBindings b) → a = b := by decide
  exact h a (mem_all a) b (mem_all b) (ha.trans hb.symm)

namespace Hotkeys

variable {s : Hotkeys} {blocked : Bool}

/-- What `setBinding` does, where no combo is bound twice. -/
theorem reports (hs : Distinct s.bindings) (a : Action) : s.Reports a := by
  cases a with
  | resetBindings blocked => trivial
  | reload blocked => trivial
  | setBinding blocked action combo =>
      refine ⟨by simp [setBinding, save], fun id hid => ?_⟩
      cases hc : truthyCombo combo with
      | none => simp [setBinding, save, hc, Function.update_of_ne hid]
      | some c =>
          obtain ⟨rfl, hne⟩ := truthyCombo_eq_some.mp hc
          have hd : ∀ a b, s.bindings a = some c → s.bindings b = some c → a = b := fun a b ha hb =>
            hs a b c (truthyCombo_eq_some.mpr ⟨ha, hne⟩) (truthyCombo_eq_some.mpr ⟨hb, hne⟩)
          have hret : (s.setBinding blocked action (some c)).2 = some id ↔ s.bindings id = some c := by
            simp only [setBinding, hc]
            rw [displaced_spec hd]
            exact ⟨fun h => h.2.2, fun h => ⟨mem_all id, hid, h⟩⟩
          have hval : (s.setBinding blocked action (some c)).1.bindings id =
              if s.bindings id = some c then none else s.bindings id := by
            simp only [setBinding, hc, save]
            rw [Function.update_of_ne hid, displace_spec]
            simp [mem_all, hid]
          by_cases h : s.bindings id = some c
          · rw [if_pos ⟨h, by simp⟩, hval, if_pos h]
            exact ⟨rfl, hret.mpr h⟩
          · rw [if_neg fun h' => h h'.1, hval, if_neg h]
            exact ⟨rfl, mt hret.mp h⟩

/-- The action that is bound has the combo alone. -/
theorem distinct_setBinding (hs : Distinct s.bindings) (blocked : Bool) (action : HotkeyAction)
    (combo : Option JsString) : Distinct (s.setBinding blocked action combo).1.bindings := by
  obtain ⟨hact, hothers⟩ := reports hs (.setBinding blocked action combo)
  have halone : ∀ id c, id ≠ action → truthyCombo ((s.setBinding blocked action combo).1.bindings id) = some c →
      truthyCombo combo ≠ some c ∧ truthyCombo (s.bindings id) = some c := by
    intro id c hid hc
    have hcase := hothers id hid
    split at hcase
    · rw [hcase.1] at hc
      cases hc
    · rename_i hne
      rw [hcase.1] at hc
      exact ⟨fun h => hne ⟨(truthyCombo_eq_some.mp hc).1.trans (truthyCombo_eq_some.mp h).1.symm, by simp [h]⟩, hc⟩
  intro a b c ha hb
  by_cases haa : a = action <;> by_cases hba : b = action
  · exact haa.trans hba.symm
  · rw [haa, hact] at ha
    exact absurd ha (halone b c hba hb).1
  · rw [hba, hact] at hb
    exact absurd hb (halone a c haa ha).1
  · exact hs a b c (halone a c haa ha).2 (halone b c hba hb).2

/-- No combo is bound twice, here or after a reload. -/
structure Inv (s : Hotkeys) : Prop where
  bindings : Distinct s.bindings
  stored : Distinct (loadBindings s.stored)

theorem Inv.save {bindings : Bindings} (hs : s.Inv) (h : Distinct bindings) : (s.save blocked bindings).Inv := by
  cases blocked with
  | true => exact ⟨h, hs.stored⟩
  | false => exact ⟨h, h⟩

theorem Inv.step (hs : s.Inv) (a : Action) : (s.step a).Inv := by
  cases a with
  | setBinding blocked action combo => exact hs.save (distinct_setBinding hs.bindings blocked action combo)
  | resetBindings blocked => exact hs.save defaultBindings_distinct
  | reload blocked =>
      cases blocked with
      | true => exact ⟨defaultBindings_distinct, hs.stored⟩
      | false => exact ⟨hs.stored, hs.stored⟩

end Hotkeys

end Chessrepeat.Hooks
