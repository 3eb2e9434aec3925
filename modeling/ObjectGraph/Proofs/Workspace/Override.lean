import ObjectGraph.Proofs.Ordered.Dictionary
import ObjectGraph.Workspace.Merge

namespace ObjectGraph

open Dictionary (Ascending)
open Std (TransCmp OrientedCmp)

namespace Staged

variable {order : KeyOrder} {d base staged : List Entry} {e : Entry} {v : Bytes}

def apply (order : KeyOrder) (d : List Entry) (e : Entry) : List Entry :=
  match payload? e.2 with
  | some v => Dictionary.insert order e.1 v d
  | none => Dictionary.erase order e.1 d

def override (order : KeyOrder) (base staged : List Entry) : List Entry :=
  staged.foldl (apply order) base

@[simp] theorem payload?_upsert (v : Bytes) : payload? (upsert v) = some v := rfl

@[simp] theorem payload?_tombstone : payload? tombstone = none := rfl

theorem payload?_eq_some_iff {bs : Bytes} : payload? bs = some v ↔ bs = 1 :: v := by
  constructor
  · intro h
    simp only [payload?] at h
    split at h
    · rw [Option.some.inj h]
    · contradiction
  · rintro rfl
    rfl

theorem isRemoval_iff : IsRemoval e ↔ payload? e.2 = none := by
  obtain ⟨k, bs⟩ := e
  cases bs with
  | nil => simp [IsRemoval, payload?]
  | cons b bs =>
    by_cases h : b = 1
    · subst h
      simp [IsRemoval, payload?]
    · simp [IsRemoval, payload?, h]

theorem not_isRemoval_iff : ¬ IsRemoval e ↔ payload? e.2 = some (e.2.drop 1) := by
  rw [isRemoval_iff]
  constructor
  · intro h
    obtain ⟨v, hv⟩ := Option.ne_none_iff_exists'.mp h
    rw [hv, payload?_eq_some_iff.mp hv]
    rfl
  · intro h
    simp [h]

theorem apply_of_isRemoval (h : IsRemoval e) : apply order d e = Dictionary.erase order e.1 d := by
  rw [apply, isRemoval_iff.mp h]

theorem apply_of_not_isRemoval (h : ¬ IsRemoval e) :
    apply order d e = Dictionary.insert order e.1 (e.2.drop 1) d := by
  rw [apply, not_isRemoval_iff.mp h]

theorem override_cons (base : List Entry) (e : Entry) (staged : List Entry) :
    override order base (e :: staged) = override order (apply order base e) staged := rfl

theorem override_of_gt {b : Entry} (h : ∀ e ∈ staged, order e.1 b.1 = .gt) :
    override order (b :: base) staged = b :: override order base staged := by
  induction staged generalizing base with
  | nil => rfl
  | cons e staged ih =>
    have he : apply order (b :: base) e = b :: apply order base e := by
      cases hp : payload? e.2 <;> simp [apply, hp, Dictionary.insert, Dictionary.erase, h e]
    rw [override_cons, he, ih fun a ha => h a (List.mem_cons_of_mem _ ha), override_cons]

variable [TransCmp order]

theorem ascending_apply (hd : Ascending order d) : Ascending order (apply order d e) := by
  rw [apply]
  split
  · exact hd.insert _ _
  · exact hd.erase _

theorem ascending_override (hb : Ascending order base) : Ascending order (override order base staged) := by
  induction staged generalizing base with
  | nil => exact hb
  | cons e staged ih => exact ih (ascending_apply hb)

theorem find?_apply (hd : Ascending order d) (k : Bytes) :
    Dictionary.find? order k (apply order d e) =
      if order k e.1 = .eq then (payload? e.2).map (e.1, ·) else Dictionary.find? order k d := by
  cases hp : payload? e.2 with
  | none => simp [apply, hp, Dictionary.find?_erase hd]
  | some v => simp [apply, hp, Dictionary.find?_insert hd]

theorem find?_override (hb : Ascending order base) (hs : Ascending order staged) (k : Bytes) :
    Dictionary.find? order k (override order base staged) =
      match Dictionary.find? order k staged with
      | some e => (payload? e.2).map (e.1, ·)
      | none => Dictionary.find? order k base := by
  induction staged generalizing base with
  | nil => rfl
  | cons e staged ih =>
    rw [override_cons, ih (ascending_apply hb) hs.tail, find?_apply hb]
    cases hk : order k e.1 with
    | lt =>
      have hnone : Dictionary.find? order k staged = none := by
        rw [Dictionary.find?_eq_none_iff hs.tail]
        intro a ha
        simp [TransCmp.lt_trans hk (hs.head_lt ha)]
      simp [Dictionary.find?, hk, hnone]
    | eq =>
      have hnone : Dictionary.find? order k staged = none := by
        rw [Dictionary.find?_eq_none_iff hs.tail]
        intro a ha
        simp [TransCmp.lt_of_eq_of_lt hk (hs.head_lt ha)]
      simp [Dictionary.find?, hk, hnone]
    | gt => simp [Dictionary.find?, hk]

theorem override_startingAt (hb : Ascending order base) (hs : Ascending order staged) (k : Bytes) :
    override order (Dictionary.startingAt order k base) (Dictionary.startingAt order k staged) =
      Dictionary.startingAt order k (override order base staged) := by
  apply (ascending_override (hb.startingAt k)).ext_find? ((ascending_override hb).startingAt k)
  intro j
  rw [find?_override (hb.startingAt k) (hs.startingAt k), Dictionary.find?_startingAt hb,
    Dictionary.find?_startingAt hs, Dictionary.find?_startingAt (ascending_override hb),
    find?_override hb hs]
  by_cases hkj : order k j = .gt
  · simp [hkj]
  · simp [hkj]

omit [TransCmp order] in
theorem override_cons_of_isRemoval {rest : List Entry} (hr : IsRemoval e)
    (h : Dictionary.erase order e.1 base = rest) :
    override order base (e :: staged) = override order rest staged := by
  rw [override_cons, apply_of_isRemoval hr, h]

theorem override_cons_of_not_isRemoval {rest : List Entry} (hs : Ascending order (e :: staged))
    (hr : ¬ IsRemoval e)
    (h : Dictionary.insert order e.1 (e.2.drop 1) base = (e.1, e.2.drop 1) :: rest) :
    override order base (e :: staged) = (e.1, e.2.drop 1) :: override order rest staged := by
  rw [override_cons, apply_of_not_isRemoval hr, h]
  exact override_of_gt fun a ha => OrientedCmp.gt_of_lt (hs.head_lt ha)

end Staged

namespace Position

open Staged

variable {order : KeyOrder} [TransCmp order] {base staged : List Entry}

omit [TransCmp order] in
theorem remaining_of_current? {p : Position} {e : Entry} (h : p.current? = some e) :
    p.remaining order = e :: (p.advance order).remaining order := by
  rw [remaining]
  split <;> simp_all

omit [TransCmp order] in
theorem remaining_of_exhausted {p : Position} (h : p.current? = none) : p.remaining order = [] := by
  rw [remaining]
  split <;> simp_all

theorem remaining_staged {rest : List Entry} {e : Entry} {p : Position}
    (hs : Ascending order (e :: staged)) (herase : Dictionary.erase order e.1 base = rest)
    (hinsert : ∀ v, Dictionary.insert order e.1 v base = (e.1, v) :: rest)
    (hcurrent : p.current? = some (e.1, e.2.drop 1)) (hadvance : p.advance order = settle order rest staged)
    (hnext : (settle order rest staged).remaining order = override order rest staged) :
    (if IsRemoval e then settle order rest staged else p).remaining order =
      override order base (e :: staged) := by
  split
  next hr => rw [override_cons_of_isRemoval hr herase, hnext]
  next hr =>
    rw [override_cons_of_not_isRemoval hs hr (hinsert _), ← hnext, ← hadvance]
    exact remaining_of_current? hcurrent

theorem remaining_settle (hb : Ascending order base) (hs : Ascending order staged) :
    (settle order base staged).remaining order = override order base staged := by
  induction hn : base.length + staged.length using Nat.strongRecOn generalizing base staged with
  | ind n ih =>
    cases staged with
    | nil =>
      cases base with
      | nil => exact remaining_of_exhausted rfl
      | cons b base =>
        have hnext := ih _ (by simp [← hn]) hb.tail hs rfl
        rw [settle, remaining_of_current? rfl]
        exact congrArg (b :: ·) hnext
    | cons e staged =>
      cases base with
      | nil =>
        have hnext := ih _ (by simp [← hn]) hb hs.tail rfl
        rw [settle]
        exact remaining_staged hs rfl (fun _ => rfl) rfl rfl hnext
      | cons b base =>
        rw [settle]
        cases hbe : order b.1 e.1 with
        | lt =>
          have hnext := ih _ (by simp [← hn]) hb.tail hs rfl
          have hfirst : ∀ a ∈ e :: staged, order a.1 b.1 = .gt := by
            intro a ha
            rcases List.mem_cons.mp ha with rfl | ha
            · exact OrientedCmp.gt_of_lt hbe
            · exact OrientedCmp.gt_of_lt (TransCmp.lt_trans hbe (hs.head_lt ha))
          rw [override_of_gt hfirst, ← hnext]
          exact remaining_of_current? rfl
        | gt =>
          have hnext := ih _ (by simp [← hn]) hb hs.tail rfl
          have heb := OrientedCmp.lt_of_gt hbe
          have herase : Dictionary.erase order e.1 (b :: base) = b :: base := by
            simp [Dictionary.erase, heb]
          have hinsert (v : Bytes) :
              Dictionary.insert order e.1 v (b :: base) = (e.1, v) :: b :: base := by
            simp [Dictionary.insert, heb]
          exact remaining_staged hs herase hinsert rfl rfl hnext
        | eq =>
          have hnext := ih _ (by simp [← hn]; omega) hb.tail hs.tail rfl
          have heb := OrientedCmp.eq_symm hbe
          have herase : Dictionary.erase order e.1 (b :: base) = base := by
            simp [Dictionary.erase, heb]
          have hinsert (v : Bytes) :
              Dictionary.insert order e.1 v (b :: base) = (e.1, v) :: base := by
            simp [Dictionary.insert, heb]
          exact remaining_staged hs herase hinsert rfl rfl hnext

end Position

end ObjectGraph
