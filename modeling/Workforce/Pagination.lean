import Workforce.Contract
import Workforce.Paging

/-!
`ListJobs`, page by page.

The two stores have the same code: collect the root jobs in the order in which the map happens to
be enumerated, sort them by `CreatedAt` alone, go to the job that the cursor names.
-/

namespace Workforce.Pagination

open Contract Paging Sorting Tables

/-- Sorting by this key puts the newest job first. -/
def age (j : Job) : ℤ := -j.CreatedAt

/-- The root jobs, as one enumeration of the map of jobs meets them. -/
def collected (jobs : List Job) : List Job := jobs.filter fun j => j.ParentJobID = ""

/-- A page starts after the job that the cursor names, if there is one. -/
def startOf (all : List Job) (cursor : String) : ℕ :=
  if cursor = "" then 0
  else
    match all.findIdx? fun j => j.ID = cursor with
    | some i => i + 1
    | none => 0

/-- A page of root jobs and the cursor for the next one; `jobs` is the enumeration of the map, and
`slice` the sort. With a limit of zero the code fails on the last job of an empty page. -/
def ListJobs (slice : Sorter age) (jobs : List Job) (cursor : String) (limit : ℕ) :
    List Job × String :=
  let all := slice.sort (collected jobs)
  let start := startOf all cursor
  if all.length ≤ start then ([], "")
  else
    let stop := if all.length < start + limit then all.length else start + limit
    let page := (all.drop start).take (stop - start)
    let nextCursor := if stop < all.length then (page.getLast?.map Job.ID).getD "" else ""
    (page, nextCursor)

/-- Call `ListJobs` until it gives no cursor; the first number bounds the calls, `calls` are the
enumerations. -/
def listAll (slice : Sorter age) (limit : ℕ) (calls : ℕ → List Job) :
    ℕ → ℕ → String → Option (List Job)
  | 0, _, _ => none
  | fuel + 1, i, cursor =>
    let (page, nextCursor) := ListJobs slice (calls i) cursor limit
    if nextCursor = "" then some page
    else (listAll slice limit calls fuel (i + 1) nextCursor).map (page ++ ·)

variable {slice : Sorter age} {limit : ℕ} {calls : ℕ → List Job}

lemma drop_startOf (all : List Job) (cursor : String) :
    all.drop (startOf all cursor) = after Job.ID "" cursor all := by
  unfold startOf after
  split_ifs
  · rfl
  · rcases hfound : all.findIdx? (·.ID = cursor) with _ | i
    · simp only [hfound, List.drop_zero]
    · simp only [hfound]

lemma ListJobs_eq (jobs : List Job) (cursor : String) :
    ListJobs slice jobs cursor limit =
      page Job.ID "" limit (after Job.ID "" cursor (slice.sort (collected jobs))) := by
  rw [← drop_startOf, ListJobs, page]
  dsimp only
  generalize slice.sort (collected jobs) = all
  generalize startOf all cursor = start
  rw [List.length_drop]
  by_cases hend : all.length ≤ start
  · rw [if_pos hend, List.drop_eq_nil_of_le hend, List.take_nil, if_neg (by omega)]
  · rw [if_neg hend]
    by_cases hlast : all.length < start + limit
    · have htake : (all.drop start).take (all.length - start) = (all.drop start).take limit := by
        have hlength := List.length_drop (i := start) (l := all)
        rw [List.take_of_length_le (by omega), List.take_of_length_le (by omega)]
      rw [if_pos hlast, if_neg (lt_irrefl _), htake, if_neg (by omega)]
    · rw [if_neg hlast, Nat.add_sub_cancel_left]
      by_cases hnext : start + limit < all.length
      · rw [if_pos hnext, if_pos (by omega)]
      · rw [if_neg hnext, if_neg (by omega)]

lemma listAll_eq (fuel i : ℕ) (cursor : String) :
    listAll slice limit calls fuel i cursor =
      collect Job.ID "" limit (fun i => slice.sort (collected (calls i))) fuel i cursor := by
  induction fuel generalizing i cursor with
  | zero => rfl
  | succ fuel ih =>
    rw [listAll, collect, ListJobs_eq]
    simp only [ih]

/-! ### What the client gets -/

variable {jobs : Table Job.ID}

/-- The jobs that may be stored at a later call: those of the first one, and new ones, whose root
jobs are newer than all root jobs before. -/
structure Later (jobs stored : Table Job.ID) : Prop where
  kept : ∀ j ∈ jobs.values, j ∈ stored.values
  newer : ∀ j ∈ stored.values, j ∉ jobs.values → j.ParentJobID = "" →
    ∀ r ∈ collected jobs.values, r.CreatedAt < j.CreatedAt

/-- Each call enumerates what is stored when it is made, in any order. -/
def Enumerates (jobs : Table Job.ID) (calls : ℕ → List Job) : Prop :=
  (calls 0).Perm jobs.values ∧
    ∀ i, ∃ stored, Later jobs stored ∧ (calls i).Perm stored.values

/-- The pages end, and have every root job of the first call once and nothing else, the newest
first. -/
def Complete (slice : Sorter age) (limit : ℕ) (jobs : Table Job.ID) (calls : ℕ → List Job) : Prop :=
  ∃ fuel out, listAll slice limit calls fuel 0 "" = some out ∧
    out.Perm (collected jobs.values) ∧ out.Pairwise fun a b => b.CreatedAt ≤ a.CreatedAt

/-- A job that a page may end with: some number of full pages, others following, ends no sooner than
the jobs that are newer and no later than those that are not older. -/
def PageEnd (limit : ℕ) (jobs : Table Job.ID) (j : Job) : Prop :=
  ∃ k, (collected jobs.values).countP (fun r => j.CreatedAt < r.CreatedAt) < k * limit ∧
    k * limit ≤ (collected jobs.values).countP (fun r => j.CreatedAt ≤ r.CreatedAt) ∧
    k * limit < (collected jobs.values).length

/-- No page may end with a job that shares its `CreatedAt` with another root job or has no ID. -/
def CleanEnds (limit : ℕ) (jobs : Table Job.ID) : Prop :=
  ∀ j ∈ collected jobs.values, PageEnd limit jobs j →
    j.ID ≠ "" ∧ ∀ r ∈ collected jobs.values, r.CreatedAt = j.CreatedAt → r = j

lemma cleanEnds_iff :
    CleanEnds limit jobs ↔ Divides age Job.ID "" limit (collected jobs.values) := by
  have hlt (j r : Job) : age r < age j ↔ j.CreatedAt < r.CreatedAt := neg_lt_neg_iff
  have hle (j r : Job) : age r ≤ age j ↔ j.CreatedAt ≤ r.CreatedAt := neg_le_neg_iff
  have heq (j r : Job) : age r = age j ↔ r.CreatedAt = j.CreatedAt := neg_inj
  simp only [CleanEnds, PageEnd, Divides, EndsAt, Sole, hlt, hle, heq]
  refine ⟨fun h k j hj hk => h j hj ⟨k, hk⟩, ?_⟩
  rintro h j hj ⟨k, hk⟩
  exact h k j hj hk

lemma mem_collected {l : List Job} {j : Job} : j ∈ collected l ↔ j ∈ l ∧ j.ParentJobID = "" := by
  rw [collected, List.mem_filter, decide_eq_true_iff]

lemma nodup_ids (t : Table Job.ID) : ((collected t.values).map Job.ID).Nodup :=
  (nodup_keys t).sublist (List.filter_sublist.map _)

/-- A later call sees the root jobs of the first one behind those that are new. -/
lemma extends_of_later {stored : Table Job.ID} {l : List Job} (h : Later jobs stored)
    (hl : l.Perm stored.values) :
    Extends age Job.ID (collected jobs.values) (slice.sort (collected l)) := by
  have hperm : (slice.sort (collected l)).Perm (collected stored.values) :=
    (slice.perm _).trans (hl.filter _)
  refine ⟨slice.sorted _, (hperm.map _).nodup_iff.mpr (nodup_ids stored),
    (collected stored.values).filter (fun j => j ∉ jobs.values), ?_, fun j hj r hr => ?_⟩
  · refine hperm.trans ((List.perm_ext_iff_of_nodup (nodup_ids stored).of_map ?_).mpr fun j => ?_)
    · refine List.nodup_append.mpr ⟨(nodup_ids stored).of_map.filter _, (nodup_ids jobs).of_map, ?_⟩
      rintro j hj _ hr rfl
      have hnew := of_decide_eq_true (List.mem_filter.mp hj).2
      exact hnew (mem_collected.mp hr).1
    · rw [List.mem_append, List.mem_filter, mem_collected, mem_collected, decide_eq_true_iff]
      constructor
      · rintro ⟨hj, hroot⟩
        by_cases hold : j ∈ jobs.values
        · exact .inr ⟨hold, hroot⟩
        · exact .inl ⟨⟨hj, hroot⟩, hold⟩
      · rintro (⟨hj, -⟩ | ⟨hold, hroot⟩)
        · exact hj
        · exact ⟨h.kept j hold, hroot⟩
  · obtain ⟨hj, hnew⟩ := List.mem_filter.mp hj
    obtain ⟨hj, hroot⟩ := mem_collected.mp hj
    exact neg_lt_neg (h.newer j hj (of_decide_eq_true hnew) hroot r hr)

lemma enumerates_any {lists : ℕ → List Job} (h : ∀ i, (lists i).Perm (collected jobs.values)) :
    Enumerates jobs fun i => lists i ++ jobs.values.filter fun j => ¬ j.ParentJobID = "" := by
  have hperm (i : ℕ) :
      (lists i ++ jobs.values.filter fun j => ¬ j.ParentJobID = "").Perm jobs.values := by
    have hsplit := List.filter_append_perm (fun j : Job => decide (j.ParentJobID = "")) jobs.values
    simp only [← decide_not] at hsplit
    exact ((h i).append_right _).trans hsplit
  refine ⟨hperm 0, fun i => ⟨jobs, ⟨fun _ hj => hj, fun j hj hnew => absurd hj hnew⟩, hperm i⟩⟩

lemma collected_any {l : List Job} (h : l.Perm (collected jobs.values)) :
    collected (l ++ jobs.values.filter fun j => ¬ j.ParentJobID = "") = l := by
  have hroots : collected l = l :=
    List.filter_eq_self.mpr fun j hj => by simpa using (mem_collected.mp (h.mem_iff.mp hj)).2
  have hchildren : collected (jobs.values.filter fun j => ¬ j.ParentJobID = "") = [] := by
    simp [collected]
  rw [collected, List.filter_append]
  change collected l ++ collected _ = l
  rw [hroots, hchildren, List.append_nil]

/-- **Pagination.** Whatever order the map is enumerated in at each call, however the sort treats
equal times and whatever newer jobs are saved meanwhile, the pages end and have every root job of
the first call once and no other job, the newest first, exactly if no page may end with a job whose
`CreatedAt` another root job has too, or which has no ID. -/
theorem pages_complete_iff (hlimit : 1 ≤ limit) (jobs : Table Job.ID) :
    (∀ slice calls, Enumerates jobs calls → Complete slice limit jobs calls) ↔
      CleanEnds limit jobs := by
  rw [cleanEnds_iff]
  constructor
  · intro h
    refine divides_of_alwaysComplete hlimit (nodup_ids jobs) fun lists hlists => ?_
    obtain ⟨fuel, out, hout, hperm, -⟩ :=
      h (insertion age) _ (enumerates_any fun i => (hlists i).1)
    have hsame : (fun i => (insertion age).sort (collected
        (lists i ++ jobs.values.filter fun j => ¬ j.ParentJobID = ""))) = lists := by
      funext i
      rw [collected_any (hlists i).1, insertion_sort_of_sorted (hlists i).2]
    rw [listAll_eq, hsame] at hout
    exact ⟨fuel, out, hout, hperm⟩
  · intro h slice calls hcalls
    have hfirst : (slice.sort (collected (calls 0))).Perm (collected jobs.values) :=
      (slice.perm _).trans (hcalls.1.filter _)
    have hlists (i : ℕ) :
        Extends age Job.ID (collected jobs.values) (slice.sort (collected (calls i))) := by
      obtain ⟨stored, hlater, hl⟩ := hcalls.2 i
      exact extends_of_later hlater hl
    obtain ⟨fuel, out, hout, hperm, hsorted⟩ :=
      collect_complete hlimit (nodup_ids jobs) hfirst hlists h
    refine ⟨fuel, out, ?_, hperm, hsorted.imp fun hle => neg_le_neg_iff.mp hle⟩
    rw [listAll_eq, hout]

/-- Three root jobs, each of its own time, and a child. -/
def distinct : Table Job.ID :=
  (((Table.empty _).put { ID := "a", CreatedAt := 1 }).put { ID := "b", CreatedAt := 2 }).put
    { ID := "c", CreatedAt := 3 } |>.put { ID := "d", ParentJobID := "a", CreatedAt := 2 }

theorem pages_complete_distinct :
    1 ≤ 2 ∧ CleanEnds 2 distinct ∧
      ∀ slice calls, Enumerates distinct calls → Complete slice 2 distinct calls := by
  have hclean : CleanEnds 2 distinct := by
    rintro j hj -
    have hall : ∀ j ∈ collected distinct.values, j.ID ≠ "" ∧
        ∀ r ∈ collected distinct.values, r.CreatedAt = j.CreatedAt → r = j := by decide
    exact hall j hj
  exact ⟨by decide, hclean, (pages_complete_iff (by decide) distinct).mpr hclean⟩

def twins : Table Job.ID :=
  ((Table.empty _).put { ID := "a", CreatedAt := 1 }).put { ID := "b", CreatedAt := 1 }

/-- The first call meets `a` first, the second one `b`. -/
def alternating (i : ℕ) : List Job :=
  if i = 0 then [{ ID := "a", CreatedAt := 1 }, { ID := "b", CreatedAt := 1 }]
  else [{ ID := "b", CreatedAt := 1 }, { ID := "a", CreatedAt := 1 }]

lemma listAll_alternating (fuel : ℕ) :
    listAll (insertion age) 1 alternating (fuel + 2) 0 "" =
      some [{ ID := "a", CreatedAt := 1 }] := by
  have hfirst : ListJobs (insertion age) (alternating 0) "" 1 =
      ([{ ID := "a", CreatedAt := 1 }], "a") := by decide
  have hsecond : ListJobs (insertion age) (alternating 1) "a" 1 = ([], "") := by decide
  have hrest : listAll (insertion age) 1 alternating (fuel + 1) 1 "a" = some [] := by
    rfl
  rw [listAll, hfirst]
  dsimp only
  rfl

/-- The second job is on no page. -/
theorem twin_left_out :
    Enumerates twins alternating ∧
      listAll (insertion age) 1 alternating 2 0 "" = some [{ ID := "a", CreatedAt := 1 }] ∧
      ¬ Complete (insertion age) 1 twins alternating := by
  have hperm (i : ℕ) : (alternating i).Perm twins.values := by
    unfold alternating
    split_ifs <;> decide
  refine ⟨⟨hperm 0, fun i => ⟨twins, ⟨fun _ hj => hj, fun j hj hnew => absurd hj hnew⟩, hperm i⟩⟩,
    listAll_alternating 0, ?_⟩
  rintro ⟨fuel, out, hout, hall, -⟩
  match fuel with
  | 0 => cases hout
  | 1 =>
    have hnone : listAll (insertion age) 1 alternating 1 0 "" = none := by decide
    rw [hnone] at hout
    cases hout
  | fuel + 2 =>
    rw [listAll_alternating] at hout
    cases hout
    have hlengths := hall.length_eq
    revert hlengths
    decide

end Workforce.Pagination
