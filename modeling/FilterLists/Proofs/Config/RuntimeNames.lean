import FilterLists.Proofs.Config.File
import FilterLists.Proofs.Subscriptions
import Mathlib.Data.List.Find

/-! Names that a running service knows, taken over into a configuration. Only names change, each to
that of the first live filter with the id and URL of the entry. What an entry looks up does not
depend on its name, so taking the names over once more changes nothing. -/
namespace FilterLists

namespace FilteringConfig
variable {c : FilteringConfig} {runtime other : List Filter}

/-- What becomes of an entry of the configuration. -/
inductive TakesName (runtime : List Filter) (f : Filter) : Filter → Prop
  /-- No live filter has its id and URL. -/
  | unknown (hnone : ∀ live ∈ runtime, live.subscription ≠ f.subscription) : TakesName runtime f f
  /-- It gets the name of the first one that has. -/
  | known {before : List Filter} {live : Filter} {after : List Filter}
      (hruntime : runtime = before ++ live :: after) (hsame : live.subscription = f.subscription)
      (hfirst : ∀ earlier ∈ before, earlier.subscription ≠ f.subscription) :
      TakesName runtime f { f with name := live.name }

def withRuntimeName (runtime : List Filter) (f : Filter) : Filter :=
  { f with name := runtimeName runtime f }

theorem matches_iff {live f : Filter} :
    (decide (live.id = f.id) && decide (live.url = f.url)) = true ↔
      live.subscription = f.subscription := by
  simp [Filter.subscription]

theorem takesName (runtime : List Filter) (f : Filter) :
    TakesName runtime f (withRuntimeName runtime f) := by
  unfold withRuntimeName runtimeName
  cases hfind : runtime.find? (fun live => live.id = f.id && live.url = f.url) with
  | none =>
    refine .unknown fun live hlive hsame => ?_
    exact List.find?_eq_none.mp hfind live hlive (matches_iff.mpr hsame)
  | some live =>
    obtain ⟨hsame, before, after, hruntime, hbefore⟩ := List.find?_eq_some_iff_append.mp hfind
    refine .known hruntime (matches_iff.mp hsame) fun earlier hearlier hsame => ?_
    have hnot := hbefore earlier hearlier
    rw [matches_iff.mpr hsame] at hnot
    cases hnot

/-- The name of an entry is not what it is looked up by. -/
theorem runtimeName_withRuntimeName (runtime : List Filter) (f : Filter) :
    runtimeName runtime (withRuntimeName runtime f) = (withRuntimeName runtime f).name := by
  unfold withRuntimeName runtimeName
  dsimp only
  cases runtime.find? (fun live => live.id = f.id && live.url = f.url) <;> rfl

/-- Of filters with distinct ids and URLs, one at most can be meant. -/
theorem withRuntimeName_of_perm (hdistinct : (runtime.map Filter.subscription).Nodup)
    (hperm : runtime.Perm other) (f : Filter) :
    withRuntimeName other f = withRuntimeName runtime f := by
  have hfind : runtime.find? (fun live => live.id = f.id && live.url = f.url) =
      other.find? (fun live => live.id = f.id && live.url = f.url) := by
    refine List.find?_eq_find?_of_perm hperm ?_
    rintro live ⟨hlive, hsame⟩ live' ⟨hlive', hsame'⟩
    exact List.inj_on_of_nodup_map hdistinct hlive hlive'
      ((matches_iff.mp hsame).trans (matches_iff.mp hsame').symm)
  simp only [withRuntimeName, runtimeName, hfind]

theorem filters_applyRuntimeNames (c : FilteringConfig) (runtime : List Filter) :
    (c.applyRuntimeNames runtime).1.filters = c.filters.map (withRuntimeName runtime) :=
  rfl

theorem count_applyRuntimeNames (c : FilteringConfig) (runtime : List Filter) :
    (c.applyRuntimeNames runtime).2 =
      (c.filters.zip (c.applyRuntimeNames runtime).1.filters).countP
        (fun entry => entry.1.name ≠ entry.2.name) := by
  have hzip : c.filters.zip (c.filters.map (withRuntimeName runtime)) =
      c.filters.map (fun f => (f, withRuntimeName runtime f)) := by
    simpa using List.zip_map' (f := id) (g := withRuntimeName runtime) (l := c.filters)
  rw [filters_applyRuntimeNames, hzip, List.countP_map]
  refine List.countP_congr fun f _ => ?_
  simp only [Function.comp_apply, decide_eq_true_eq]
  exact ne_comm

theorem applyRuntimeNames_again (c : FilteringConfig) (runtime : List Filter) :
    (c.applyRuntimeNames runtime).1.applyRuntimeNames runtime =
      ((c.applyRuntimeNames runtime).1, 0) := by
  have hnames : ∀ g ∈ (c.applyRuntimeNames runtime).1.filters,
      runtimeName runtime g = g.name := by
    intro g hg
    obtain ⟨f, -, rfl⟩ := List.mem_map.mp hg
    exact runtimeName_withRuntimeName runtime f
  have hkept : (c.applyRuntimeNames runtime).1.filters.map (withRuntimeName runtime) =
      (c.applyRuntimeNames runtime).1.filters := by
    refine (List.map_congr_left fun g hg => ?_).trans (List.map_id _)
    rw [withRuntimeName, hnames g hg]
    rfl
  refine Prod.ext (congrArg (fun filters => { c with filters }) hkept) ?_
  exact List.countP_eq_zero.mpr fun g hg => by simp [hnames g hg]

theorem applyRuntimeNames_of_perm (hdistinct : (runtime.map Filter.subscription).Nodup)
    (hperm : runtime.Perm other) (c : FilteringConfig) :
    c.applyRuntimeNames other = c.applyRuntimeNames runtime := by
  have hnames : withRuntimeName other = withRuntimeName runtime :=
    funext (withRuntimeName_of_perm hdistinct hperm)
  have hafter : (c.applyRuntimeNames other).1 = (c.applyRuntimeNames runtime).1 :=
    congrArg (fun entry => { c with filters := c.filters.map entry }) hnames
  exact Prod.ext hafter (by rw [count_applyRuntimeNames, hafter, count_applyRuntimeNames])

/-- Taking over the names that a running service knows changes names and nothing else. An entry gets
the name of the first live filter with its id and URL; without one it stays as it is. The number
returned is that of the entries whose names differ afterwards. Once more changes nothing, and where
no two live filters have the same id and URL, their order makes no difference. -/
theorem takes_over_names_only (c : FilteringConfig) (runtime : List Filter) :
    let after := (c.applyRuntimeNames runtime).1
    let renamed := (c.applyRuntimeNames runtime).2
    { after with filters := c.filters } = c ∧
    after.filters.map (fun g => (g.id, g.url, g.enabled)) =
      c.filters.map (fun f => (f.id, f.url, f.enabled)) ∧
    List.Forall₂ (TakesName runtime) c.filters after.filters ∧
    renamed = (c.filters.zip after.filters).countP (fun entry => entry.1.name ≠ entry.2.name) ∧
    after.applyRuntimeNames runtime = (after, 0) ∧
    ((runtime.map Filter.subscription).Nodup → ∀ other, runtime.Perm other →
      c.applyRuntimeNames other = (after, renamed)) := by
  intro after renamed
  refine ⟨rfl, ?_, ?_, count_applyRuntimeNames c runtime, applyRuntimeNames_again c runtime,
    fun hdistinct other hperm => applyRuntimeNames_of_perm hdistinct hperm c⟩
  · rw [filters_applyRuntimeNames, List.map_map]
    rfl
  · rw [filters_applyRuntimeNames, List.forall₂_map_right_iff]
    exact List.forall₂_same.mpr fun f _ => takesName runtime f

/-- Of two live filters with the same id and URL the first one counts. -/
example : runtimeName [{ id := 1, url := "http://a", name := "A" },
    { id := 1, url := "http://a", name := "B" }] { id := 1, url := "http://a" } = "A" := by decide

end FilteringConfig

namespace Config
variable {tree : FileTree} {path : String} {c : Config}

/-- Names that are saved once more leave the file as it is. -/
theorem IsStored.saveNames_again (h : IsStored tree path c) (runtime : List Filter)
    (now later : Instant) :
    ∃ after, Config.saveNames tree path runtime now = .ok after ∧
      IsStored after path (c.withNames runtime) ∧
      Config.saveNames after path runtime later = .ok after := by
  obtain ⟨after, hsaved, hstored⟩ := h.saveNames runtime now
  refine ⟨after, hsaved, hstored, ?_⟩
  have hnone : ((c.withNames runtime).filtering.applyRuntimeNames runtime).2 = 0 := by
    rw [withNames, FilteringConfig.applyRuntimeNames_again]
  rw [saveNames_of_load hstored.loads, if_pos hnone]

end Config

end FilterLists
