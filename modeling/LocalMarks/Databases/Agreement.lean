import LocalMarks.Databases.Meta

/-!
# One index for two tables

The metadata table leaves out the files that `stat` does not know, the cache registers every
file. The tables are addressed by the same index all the same.
-/

namespace LocalMarks.Databases
open LocalMarks.Lib
open LocalMarks.BookmarkCache

/-- The arguments that the loop of populate_db_meta_all keeps. -/
def listed (env : ℕ → FileEnv) (file : Option CString × ℕ) : Bool :=
  file.1.isSome && (env file.2).stat.isSome

theorem populate_fold (env : ℕ → FileEnv) (files : List (Option CString × ℕ))
    (table : List (Slot JsonDbMetaData)) :
    (files.foldl (populateStep env) table).map Slot.arg =
      table.map Slot.arg ++ (files.filter (listed env)).map Prod.snd := by
  induction files generalizing table with
  | nil => rw [List.foldl_nil, List.filter_nil, List.map_nil, List.append_nil]
  | cons f fs ih =>
    rw [List.foldl_cons, ih]
    obtain ⟨f, n⟩ := f
    cases f with
    | none => rfl
    | some p =>
      cases hst : (env n).stat with
      | none => simp [populateStep, listed, hst]
      | some st => simp [populateStep, listed, hst]

theorem register_fold (files : List (Option CString × ℕ)) (table : List (Slot BookmarkCacheEntry))
    (h : table.length + files.length ≤ maxBookmarkFiles) :
    (files.foldl registerStep table).map Slot.arg =
      table.map Slot.arg ++ (files.filter fun f => f.1.isSome).map Prod.snd := by
  induction files generalizing table with
  | nil => rw [List.foldl_nil, List.filter_nil, List.map_nil, List.append_nil]
  | cons f fs ih =>
    rw [List.length_cons] at h
    obtain ⟨f, n⟩ := f
    cases f with
    | none =>
      rw [List.foldl_cons]
      exact ih table (by omega)
    | some p =>
      have hroom : table.length < maxBookmarkFiles := by omega
      rw [List.foldl_cons]
      simp only [registerStep, hroom, if_true]
      rw [ih _ (by rw [List.length_append, List.length_singleton]; omega)]
      simp

/-- The kept elements of a list come first exactly when nothing kept follows something
dropped. -/
theorem filter_prefix_iff {α : Type} (q : α → Bool) (l : List α) :
    l.filter q <+: l ↔ l.Pairwise fun a b => q b = true → q a = true := by
  induction l with
  | nil => simp
  | cons x l ih =>
    rw [List.pairwise_cons]
    by_cases hx : q x = true
    · rw [List.filter_cons_of_pos hx, List.prefix_cons_inj, ih]
      exact ⟨fun h => ⟨fun _ _ _ => hx, h⟩, fun h => h.2⟩
    · rw [List.filter_cons_of_neg hx]
      constructor
      · intro h
        have hnone : l.filter q = [] := by
          cases hf : l.filter q with
          | nil => rfl
          | cons y ys =>
            rw [hf] at h
            obtain ⟨rfl, _⟩ := List.cons_prefix_cons.mp h
            have hy : y ∈ l.filter q := hf ▸ List.mem_cons_self ..
            exact absurd (List.mem_filter.mp hy).2 hx
        rw [List.filter_eq_nil_iff] at hnone
        refine ⟨fun b hb hqb => absurd hqb (hnone b hb), ?_⟩
        exact List.pairwise_of_forall_mem_list fun a _ b hb hqb => absurd hqb (hnone b hb)
      · rintro ⟨h, _⟩
        have hnone : l.filter q = [] :=
          List.filter_eq_nil_iff.mpr fun b hb hqb => hx (h b hb hqb)
        rw [hnone]
        exact List.nil_prefix

/-- Each index of the metadata table names the same argument in the cache, and later indices
name later arguments. -/
structure IndexAgreement (args : BookmarkFiles) (env : ℕ → FileEnv) : Prop where
  same : ∀ (i : ℕ) (m : Slot JsonDbMetaData), (populateDbMetaAll args env)[i]? = some m →
    ∃ e, (registerAll args)[i]? = some e ∧ e.arg = m.arg
  ordered : ∀ (i j : ℕ) (m n : Slot JsonDbMetaData), i < j →
    (populateDbMetaAll args env)[i]? = some m → (populateDbMetaAll args env)[j]? = some n →
    m.arg < n.arg

theorem zipIdx_snd_pairwise {α : Type} (l : List α) :
    l.zipIdx.Pairwise fun a b => a.2 < b.2 := by
  rw [List.pairwise_iff_getElem]
  intro i j hi hj hij
  simp only [List.getElem_zipIdx]
  omega

theorem pairwise_sorted_iff {l : List ℕ} {r : ℕ → ℕ → Prop} (h : l.Pairwise (· < ·)) :
    l.Pairwise r ↔ ∀ a ∈ l, ∀ b ∈ l, a < b → r a b := by
  induction l with
  | nil => simp
  | cons x l ih =>
    obtain ⟨hx, hl⟩ := List.pairwise_cons.mp h
    rw [List.pairwise_cons, ih hl]
    constructor
    · rintro ⟨hxr, hlr⟩ a ha b hb hab
      rcases List.mem_cons.mp ha with rfl | ha'
      · rcases List.mem_cons.mp hb with rfl | hb'
        · omega
        · exact hxr b hb'
      · rcases List.mem_cons.mp hb with rfl | hb'
        · have := hx a ha'
          omega
        · exact hlr a ha' b hb' hab
    · intro hr
      refine ⟨fun b hb => ?_, fun a ha b hb => ?_⟩
      · exact hr x (List.mem_cons_self ..) b (List.mem_cons_of_mem _ hb) (hx b hb)
      · exact hr a (List.mem_cons_of_mem _ ha) b (List.mem_cons_of_mem _ hb)

/-- The arguments that are not NULL, in order. -/
def argPositions (args : BookmarkFiles) : List ℕ :=
  (args.files.zipIdx.filter fun f => f.1.isSome).map Prod.snd

theorem mem_argPositions {args : BookmarkFiles} {n : ℕ} :
    n ∈ argPositions args ↔ ∃ p, args.files[n]? = some (some p) := by
  unfold argPositions
  simp only [List.mem_map, List.mem_filter]
  constructor
  · rintro ⟨⟨f, m⟩, ⟨hmem, hf⟩, rfl⟩
    obtain ⟨p, rfl⟩ := Option.isSome_iff_exists.mp hf
    exact ⟨p, List.mem_zipIdx_iff_getElem?.mp hmem⟩
  · rintro ⟨p, hp⟩
    exact ⟨(some p, n), ⟨List.mem_zipIdx_iff_getElem?.mpr hp, rfl⟩, rfl⟩

theorem argPositions_sorted (args : BookmarkFiles) : (argPositions args).Pairwise (· < ·) := by
  unfold argPositions
  rw [List.pairwise_map]
  exact (zipIdx_snd_pairwise args.files).filter _

theorem registerAll_args (args : BookmarkFiles) :
    (registerAll args).map Slot.arg = argPositions args := by
  have h := register_fold args.files.zipIdx [] (by
    rw [List.length_nil, List.length_zipIdx, Nat.zero_add]
    exact args.count_le)
  rwa [List.map_nil, List.nil_append] at h

theorem populateDbMetaAll_args (args : BookmarkFiles) (env : ℕ → FileEnv) :
    (populateDbMetaAll args env).map Slot.arg =
      (argPositions args).filter fun n => (env n).stat.isSome := by
  have h := populate_fold env args.files.zipIdx []
  rw [List.map_nil, List.nil_append] at h
  rw [populateDbMetaAll, h, argPositions, List.filter_map, List.filter_filter]
  congr 2
  funext f
  rw [listed, Bool.and_comm]
  rfl

/-- The two tables agree exactly when no file that `stat` fails on comes before a file that
it knows. -/
theorem index_agreement_iff (args : BookmarkFiles) (env : ℕ → FileEnv) :
    IndexAgreement args env ↔
      ∀ (a b : ℕ) (p q : CString), a < b → args.files[a]? = some (some p) →
        args.files[b]? = some (some q) → (env b).stat ≠ none → (env a).stat ≠ none := by
  have hmeta := populateDbMetaAll_args args env
  have hcache := registerAll_args args
  have hsorted := argPositions_sorted args
  have hprefix : (populateDbMetaAll args env).map Slot.arg <+: (registerAll args).map Slot.arg ↔
      ∀ (a b : ℕ) (p q : CString), a < b → args.files[a]? = some (some p) →
        args.files[b]? = some (some q) → (env b).stat ≠ none → (env a).stat ≠ none := by
    rw [hmeta, hcache, filter_prefix_iff, pairwise_sorted_iff hsorted]
    simp only [mem_argPositions, Option.isSome_iff_ne_none]
    constructor
    · intro h a b p q hab ha hb
      exact h a ⟨p, ha⟩ b ⟨q, hb⟩ hab
    · rintro h a ⟨p, ha⟩ b ⟨q, hb⟩ hab
      exact h a b p q hab ha hb
  rw [← hprefix]
  constructor
  · intro h
    rw [List.prefix_iff_getElem?]
    intro i hi
    rw [List.length_map] at hi
    obtain ⟨e, he, harg⟩ := h.same i _ (List.getElem?_eq_getElem hi)
    rw [List.getElem?_map, he, Option.map_some, harg, List.getElem_map]
  · intro h
    have hget : ∀ (i : ℕ) (m : Slot JsonDbMetaData), (populateDbMetaAll args env)[i]? = some m →
        ((populateDbMetaAll args env).map Slot.arg)[i]? = some m.arg := by
      intro i m hm
      rw [List.getElem?_map, hm, Option.map_some]
    constructor
    · intro i m hm
      obtain ⟨hlt, heq⟩ := List.getElem?_eq_some_iff.mp (hget i m hm)
      have hc := List.prefix_iff_getElem?.mp h i hlt
      rw [heq, List.getElem?_map] at hc
      exact Option.map_eq_some_iff.mp hc
    · intro i j m n hij hm hn
      have hsub : ((populateDbMetaAll args env).map Slot.arg).Pairwise (· < ·) := by
        rw [hmeta]
        exact hsorted.filter _
      obtain ⟨hi, hmi⟩ := List.getElem?_eq_some_iff.mp (hget i m hm)
      obtain ⟨hj, hnj⟩ := List.getElem?_eq_some_iff.mp (hget j n hn)
      rw [← hmi, ← hnj]
      exact List.pairwise_iff_getElem.mp hsub i j hi hj hij

/-- Two files of which only the second is there while the metadata is read. -/
def twoFiles : BookmarkFiles :=
  ⟨[some ⟨ascii "a.json", by decide⟩, some ⟨ascii "b.json", by decide⟩], by decide⟩
def firstMissing (n : ℕ) : FileEnv :=
  ⟨if n = 0 then none else some ⟨420, 2, 0, 0, 0, 0, 0⟩, none, none, none⟩

theorem index_mismatch : ¬ ∀ args env, IndexAgreement args env := by
  intro h
  obtain ⟨e, he, harg⟩ := (h twoFiles firstMissing).same 0 _ rfl
  have hzero : (registerAll twoFiles)[0]?.map Slot.arg = some 0 := by decide
  rw [he] at hzero
  cases harg.symm.trans (Option.some.inj hzero)

end LocalMarks.Databases
