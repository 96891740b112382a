import Mathlib.Data.Finset.Card
import DistDB.TermLog

/-!
Configurations that change through the log: a log may hold changes, each of which adds or
removes one member, and a configuration is in force as soon as its change is in the log.

The majorities of two configurations overlap when the two differ in one member at most
(`Close`). That is so for the configurations of two logs, each of whose changes is anchored
in the other one: something of its own term, behind which there is no other change, is in
both of them (`Anchored`, `close_config`). For then there is one change at most where the
two logs have parted.
-/

namespace DistDB.Config

open TermLog

inductive Change (ν : Type*)
  | add (x : ν)
  | remove (x : ν)

/-- Entries that may be a change of the configuration. -/
class HasChange (ε : Type*) (ν : outParam Type*) where
  change : ε → Option (Change ν)

export HasChange (change)

section Members

variable {ν : Type*} [DecidableEq ν]

def Change.apply : Change ν → Finset ν → Finset ν
  | .add x, c => insert x c
  | .remove x, c => c.erase x

/-- The two sets agree on all but one member. -/
def Close (c c' : Finset ν) : Prop := c = c' ∨ ∃ x, c.erase x = c'.erase x

/-- The members in `q` are more than half of those in `c`. -/
def Majority (q c : Finset ν) : Prop := q ⊆ c ∧ c.card < 2 * q.card

lemma Close.symm {c c' : Finset ν} (h : Close c c') : Close c' c := by
  rcases h with rfl | ⟨x, hx⟩
  · exact .inl rfl
  · exact .inr ⟨x, hx.symm⟩

lemma close_apply (x : Change ν) (c : Finset ν) : Close (x.apply c) c := by
  cases x with
  | add x => exact .inr ⟨x, by simp [Change.apply]⟩
  | remove x => exact .inr ⟨x, by simp [Change.apply]⟩

/-- **Majorities of close configurations overlap.** -/
theorem Close.overlap {c c' q q' : Finset ν} (h : Close c c') (hq : Majority q c)
    (hq' : Majority q' c') : ∃ x, x ∈ q ∧ x ∈ q' := by
  obtain ⟨x, hx⟩ : ∃ x, c.erase x = c'.erase x := by
    rcases h with rfl | h
    · obtain ⟨y, -⟩ : q.Nonempty := Finset.card_pos.mp (by have := hq.2; omega)
      exact ⟨y, rfl⟩
    · exact h
  by_contra hnone
  have hdisj : Disjoint q q' := by
    rw [Finset.disjoint_left]
    exact fun y hy hy' => hnone ⟨y, hy, hy'⟩
  have hcard := Finset.card_le_card (Finset.union_subset_union hq.1 hq'.1)
  rw [Finset.card_union_of_disjoint hdisj] at hcard
  have hunion : (c ∪ c').erase x = c.erase x := by
    rw [Finset.erase_union_distrib, ← hx, Finset.union_self]
  have hmaj := hq.2
  have hmaj' := hq'.2
  have hd := congrArg Finset.card hx
  have hu := congrArg Finset.card hunion
  rw [Finset.card_erase_eq_ite, Finset.card_erase_eq_ite] at hd hu
  simp only [Finset.mem_union] at hu
  have hpos : x ∈ c → 0 < c.card := fun h => Finset.card_pos.mpr ⟨x, h⟩
  have hpos' : x ∈ c' → 0 < c'.card := fun h => Finset.card_pos.mpr ⟨x, h⟩
  have hposu : x ∈ c ∨ x ∈ c' → 0 < (c ∪ c').card := fun h =>
    Finset.card_pos.mpr ⟨x, Finset.mem_union.mpr h⟩
  by_cases hxc : x ∈ c <;> by_cases hxc' : x ∈ c' <;>
    simp only [hxc, hxc', or_true, true_or, or_self, if_true, if_false, forall_true_left] at * <;>
    omega

end Members

section Logs

variable {ν ε : Type*} [HasChange ε ν] {l m r : List ε}

/-- There is no change in the log. -/
def Plain (l : List ε) : Prop := ∀ e ∈ l, change e = none

/-- There is one change in the log. -/
def HasOne (l : List ε) : Prop :=
  ∃ s e s', l = s ++ e :: s' ∧ Plain s ∧ Plain s' ∧ (change e).isSome

lemma plain_or_one (h : ∀ (i j : ℕ) (e e' : ε), i < j → l[i]? = some e →
    l[j]? = some e' →
    (change e).isSome → change e' = none) : Plain l ∨ HasOne l := by
  by_cases hplain : Plain l
  · exact .inl hplain
  · obtain ⟨e, he, hchange⟩ : ∃ e ∈ l, change e ≠ none := by
      simpa [Plain] using hplain
    obtain ⟨s, s', rfl⟩ := List.append_of_mem he
    have hmid : (s ++ e :: s')[s.length]? = some e := by simp
    refine .inr ⟨s, e, s', rfl, fun e' he' => ?_, fun e' he' => ?_,
      Option.isSome_iff_ne_none.mpr hchange⟩
    · obtain ⟨i, hi⟩ := List.mem_iff_getElem?.mp he'
      have hlt := (List.getElem?_eq_some_iff.mp hi).1
      by_contra hne
      exact hchange (h i s.length e' e hlt (by rwa [List.getElem?_append_left hlt]) hmid
        (Option.isSome_iff_ne_none.mpr hne))
    · obtain ⟨i, hi⟩ := List.mem_iff_getElem?.mp he'
      refine h s.length (s.length + 1 + i) e e' (by omega) hmid ?_
        (Option.isSome_iff_ne_none.mpr hchange)
      rw [List.getElem?_append_right (by omega), show s.length + 1 + i - s.length = i + 1 by omega]
      exact hi

/-! ### Where two logs part -/

lemma exists_branch {ε : Type*} (l m : List ε) : ∃ b r r', l = b ++ r ∧ m = b ++ r' ∧
    ∀ p, p <+: l → p <+: m → p <+: b := by
  induction l generalizing m with
  | nil => exact ⟨[], [], m, rfl, rfl, fun p hp _ => hp⟩
  | cons a l ih =>
    cases m with
    | nil => exact ⟨[], a :: l, [], rfl, rfl, fun p _ hp => hp⟩
    | cons a' m =>
      by_cases ha : a = a'
      · subst ha
        obtain ⟨b, r, r', rfl, rfl, hmax⟩ := ih m
        refine ⟨a :: b, r, r', rfl, rfl, fun p hp hp' => ?_⟩
        cases p with
        | nil => exact List.nil_prefix
        | cons c p =>
          obtain ⟨rfl, hpl⟩ := List.cons_prefix_cons.mp hp
          obtain ⟨-, hpm⟩ := List.cons_prefix_cons.mp hp'
          exact List.cons_prefix_cons.mpr ⟨rfl, hmax p hpl hpm⟩
      · refine ⟨[], a :: l, a' :: m, rfl, rfl, fun p hp hp' => ?_⟩
        cases p with
        | nil => exact List.nil_prefix
        | cons c p =>
          obtain ⟨rfl, -⟩ := List.cons_prefix_cons.mp hp
          exact absurd (List.cons_prefix_cons.mp hp').1 ha

lemma getElem?_middle {ε : Type*} {b s s' : List ε} {e : ε} :
    (b ++ (s ++ e :: s'))[b.length + s.length]? = some e := by
  rw [List.getElem?_append_right (by omega), Nat.add_sub_cancel_left]
  simp

variable [HasTerm ε] {L : ℕ → List ε}

/-- Each change of `l` is in `m` too, or has something of its own term in front of it, with
no change in between, that is in `m` too. -/
def Anchored (l m : List ε) : Prop :=
  ∀ i e, l[i]? = some e → (change e).isSome → l.take (i + 1) <+: m ∨
    ∃ k, 0 < k ∧ k ≤ i ∧ l.take k <+: m ∧ termOf l k = term e ∧
      ∀ j e', k ≤ j → j < i → l[j]? = some e' → change e' = none

lemma Anchored.behind {b : List ε} (h : Anchored l m)
    (hmax : ∀ p, p <+: l → p <+: m → p <+: b) {i : ℕ} {e : ε} (hi : b.length ≤ i)
    (he : l[i]? = some e) (hchange : (change e).isSome) :
    ¬ l.take (i + 1) <+: m ∧ ∃ k, 0 < k ∧ k ≤ b.length ∧ termOf l k = term e ∧
      ∀ j e', b.length ≤ j → j < i → l[j]? = some e' → change e' = none := by
  have hlt := (List.getElem?_eq_some_iff.mp he).1
  have hnot : ¬ l.take (i + 1) <+: m := by
    intro hall
    have := (hmax _ (List.take_prefix _ _) hall).length_le
    rw [List.length_take] at this
    omega
  refine ⟨hnot, ?_⟩
  obtain ⟨k, hpos, hki, hk, hterm, hnone⟩ := (h i e he hchange).resolve_left hnot
  have hkb := (hmax _ (List.take_prefix _ _) hk).length_le
  rw [List.length_take] at hkb
  exact ⟨k, hpos, by omega, hterm, fun j e' hj hji => hnone j e' (by omega) hji⟩

lemma Anchored.plain_or_one {b : List ε} (h : Anchored (b ++ r) m)
    (hmax : ∀ p, p <+: b ++ r → p <+: m → p <+: b) : Plain r ∨ HasOne r := by
  refine Config.plain_or_one fun i j e e' hij he he' hchange => ?_
  have hat : ∀ {i : ℕ} {e : ε}, r[i]? = some e → (b ++ r)[b.length + i]? = some e := by
    intro i e he
    rwa [List.getElem?_append_right (by omega), Nat.add_sub_cancel_left]
  by_contra hne
  obtain ⟨-, k, -, -, -, hnone⟩ := h.behind hmax (Nat.le_add_right b.length j) (hat he')
    (Option.isSome_iff_ne_none.mpr hne)
  rw [hnone (b.length + i) e (by omega) (by omega) (hat he)] at hchange
  cases hchange

lemma Anchored.one {b : List ε} (h : Anchored (b ++ r) m)
    (hmax : ∀ p, p <+: b ++ r → p <+: m → p <+: b) (hr : HasOne r) :
    ∃ i e, b.length ≤ i ∧ (b ++ r)[i]? = some e ∧ ¬ (b ++ r).take (i + 1) <+: m ∧
      ∃ k, 0 < k ∧ k ≤ b.length ∧ termOf (b ++ r) k = term e := by
  obtain ⟨s, e, s', rfl, -, -, hchange⟩ := hr
  have he : (b ++ (s ++ e :: s'))[b.length + s.length]? = some e := getElem?_middle
  obtain ⟨hnot, k, hpos, hk, hterm, -⟩ := h.behind hmax (Nat.le_add_right _ _) he hchange
  exact ⟨_, e, Nat.le_add_right _ _, he, hnot, k, hpos, hk, hterm⟩

lemma no_higher {b r' : List ε} {i k' : ℕ} {e e' : ε} (hl : Rooted L (b ++ r))
    (hL : ∀ t i, termOf (L t) i ≤ t) (hi : b.length ≤ i) (he : (b ++ r)[i]? = some e)
    (hk : k' ≤ b.length) (hterm : termOf (b ++ r') k' = term e') : term e' ≤ term e := by
  have hlt := (List.getElem?_eq_some_iff.mp he).1
  have hsorted := hl.sorted hL (show k' ≤ i + 1 by omega) hlt
  rw [termOf_eq_of_getElem? he, termOf_append_left hk, ← termOf_append_left (m := r') hk, hterm]
    at hsorted
  exact hsorted

/-- **Where two anchored logs have parted there is one change at most.** -/
theorem Anchored.branch (hl : Rooted L l) (hm : Rooted L m) (hL : ∀ t i, termOf (L t) i ≤ t)
    (h : Anchored l m) (h' : Anchored m l) : ∃ b r r', l = b ++ r ∧ m = b ++ r' ∧
      (∀ p, p <+: l → p <+: m → p <+: b) ∧
      ((Plain r ∧ Plain r') ∨ (HasOne r ∧ Plain r') ∨ (Plain r ∧ HasOne r')) := by
  obtain ⟨b, r, r', rfl, rfl, hmax⟩ := exists_branch l m
  have hmax' : ∀ p, p <+: b ++ r' → p <+: b ++ r → p <+: b := fun p hp hp' => hmax p hp' hp
  refine ⟨b, r, r', rfl, rfl, hmax, ?_⟩
  rcases h.plain_or_one hmax with hr | hr
  · rcases h'.plain_or_one hmax' with hr' | hr'
    · exact .inl ⟨hr, hr'⟩
    · exact .inr (.inr ⟨hr, hr'⟩)
  · rcases h'.plain_or_one hmax' with hr' | hr'
    · exact .inr (.inl ⟨hr, hr'⟩)
    · -- one change on each side: both have the same term, and so are in one log
      exfalso
      obtain ⟨i, e, hi, he, hnot, k, hpos, hk, hterm⟩ := h.one hmax hr
      obtain ⟨i', e', hi', he', hnot', k', hpos', hk', hterm'⟩ := h'.one hmax' hr'
      have hle := no_higher hl hL hi he hk' hterm'
      have hle' := no_higher hm hL hi' he' hk hterm
      have hlt := (List.getElem?_eq_some_iff.mp he).1
      have hlt' := (List.getElem?_eq_some_iff.mp he').1
      have hroot := hl (i + 1) (Nat.succ_pos i) hlt
      have hroot' := hm (i' + 1) (Nat.succ_pos i') hlt'
      rw [termOf_eq_of_getElem? he] at hroot
      rw [termOf_eq_of_getElem? he', le_antisymm hle hle'] at hroot'
      rcases prefix_total hroot hroot' with hpre | hpre
      · exact hnot (hpre.trans (List.take_prefix _ _))
      · exact hnot' (hpre.trans (List.take_prefix _ _))

end Logs

section Configs

variable {ν ε : Type*} [DecidableEq ν] [HasChange ε ν] {base : Finset ν} {l m : List ε}

/-- The configuration in force behind a log. -/
def config (base : Finset ν) (l : List ε) : Finset ν :=
  l.foldl (fun c e => (change e).elim c fun x => x.apply c) base

@[simp] lemma config_nil : config base ([] : List ε) = base := rfl

lemma config_append : config base (l ++ m) = config (config base l) m := List.foldl_append

lemma config_concat (e : ε) :
    config base (l ++ [e]) = (change e).elim (config base l) fun x => x.apply (config base l) := by
  rw [config_append]; rfl

lemma config_plain (h : Plain l) : config base l = base := by
  induction l generalizing base with
  | nil => rfl
  | cons e l ih =>
    have he := h e (by simp)
    show config ((change e).elim base fun x => x.apply base) l = base
    rw [he]
    exact ih fun e' he' => h e' (by simp [he'])

lemma config_append_plain (h : Plain m) : config base (l ++ m) = config base l := by
  rw [config_append, config_plain h]

lemma config_append_one {s s' : List ε} {e : ε} {x : Change ν} (hs : Plain s) (hs' : Plain s')
    (hx : change e = some x) : config base (l ++ (s ++ e :: s')) = x.apply (config base l) := by
  rw [config_append, config_append, config_plain hs, ← List.singleton_append, config_append,
    config_plain hs']
  show (change e).elim _ _ = _
  rw [hx]
  rfl

lemma close_append_one (h : HasOne m) : Close (config base (l ++ m)) (config base l) := by
  obtain ⟨s, e, s', rfl, hs, hs', hchange⟩ := h
  obtain ⟨x, hx⟩ := Option.isSome_iff_exists.mp hchange
  rw [config_append_one hs hs' hx]
  exact close_apply x _

variable [HasTerm ε] {L : ℕ → List ε}

/-- **The configurations of two anchored logs are close.** -/
theorem close_config (hl : Rooted L l) (hm : Rooted L m) (hL : ∀ t i, termOf (L t) i ≤ t)
    (h : Anchored l m) (h' : Anchored m l) : Close (config base l) (config base m) := by
  obtain ⟨b, r, r', rfl, rfl, -, ⟨hr, hr'⟩ | ⟨hr, hr'⟩ | ⟨hr, hr'⟩⟩ :=
    h.branch hl hm hL h'
  · rw [config_append_plain hr, config_append_plain hr']
    exact .inl rfl
  · rw [config_append_plain hr']
    exact close_append_one hr
  · rw [config_append_plain hr]
    exact (close_append_one hr').symm

/-- The same for a log whose last change removes `x`, with `x` still counted, when no change
of the other log that is not in this one has its term or a higher one. -/
theorem close_config_insert (hl : Rooted L l) (hm : Rooted L m) (hL : ∀ t i, termOf (L t) i ≤ t)
    (h : Anchored l m) (h' : Anchored m l) {i : ℕ} {e : ε} {x : ν} (he : l[i]? = some e)
    (hx : change e = some (.remove x))
    (hlast : ∀ (j : ℕ) e', i < j → l[j]? = some e' → change e' = none)
    (hlow : ∀ (j : ℕ) e', m[j]? = some e' → (change e').isSome →
      m.take (j + 1) <+: l ∨ term e' < term e) :
    Close (insert x (config base l)) (config base m) := by
  obtain ⟨b, r, r', rfl, rfl, hmax, ⟨hr, hr'⟩ | ⟨hr, hr'⟩ | ⟨hr, hr'⟩⟩ :=
    h.branch hl hm hL h'
  · rw [config_append_plain hr, config_append_plain hr']
    exact close_apply (.add x) _
  · -- the one change is the removal, so that counting `x` undoes it
    obtain ⟨s, e', s', rfl, hs, hs', hchange⟩ := hr
    have hat : (b ++ (s ++ e' :: s'))[b.length + s.length]? = some e' := getElem?_middle
    obtain rfl : i = b.length + s.length := by
      rcases Nat.lt_trichotomy i (b.length + s.length) with hlt | heq | hgt
      · rw [hlast _ _ hlt hat] at hchange
        cases hchange
      · exact heq
      · have hin : e ∈ s' := by
          rw [← List.append_assoc, List.getElem?_append_right (by simp; omega),
            show i - (b ++ s).length = i - (b.length + s.length) - 1 + 1 by simp; omega] at he
          exact List.mem_of_getElem? he
        rw [hs' e hin] at hx
        cases hx
    obtain rfl : e' = e := Option.some.inj (hat.symm.trans he)
    rw [config_append_one hs hs' hx, config_append_plain hr']
    exact .inr ⟨x, by simp [Change.apply]⟩
  · -- the removal is in the common start, and a later change has a term that is not lower
    exfalso
    obtain ⟨s, e', s', rfl, -, -, hchange⟩ := hr'
    have hat : (b ++ (s ++ e' :: s'))[b.length + s.length]? = some e' := getElem?_middle
    have hib : i < b.length := by
      by_contra hge
      rw [List.getElem?_append_right (by omega)] at he
      rw [hr e (List.mem_of_getElem? he)] at hx
      cases hx
    have hem : (b ++ (s ++ e' :: s'))[i]? = some e := by
      rw [List.getElem?_append_left hib] at he ⊢
      exact he
    have hlt := (List.getElem?_eq_some_iff.mp hat).1
    have hsorted := hm.sorted hL (show i + 1 ≤ b.length + s.length + 1 by omega) hlt
    rw [termOf_eq_of_getElem? hem, termOf_eq_of_getElem? hat] at hsorted
    rcases hlow _ _ hat hchange with hpre | hterm
    · have hlen := (hmax _ hpre (List.take_prefix _ _)).length_le
      rw [List.length_take] at hlen
      omega
    · omega

end Configs

end DistDB.Config
