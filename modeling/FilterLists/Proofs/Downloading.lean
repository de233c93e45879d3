import FilterLists.Proofs.Record
import FilterLists.Proofs.Detection
import FilterLists.Proofs.Parsing
import FilterLists.Proofs.Text.Blank

/-! A download into a record of the caller happens wholly or not at all. The body is taken from a
complete answer only, and where it is the known one or there is none, every field of the record
stays as it was. So after many downloads the record holds the last body that was taken. -/
namespace FilterLists
variable {reply : Reply} {network : Network} {f : Filter} {body : Bytes}

/-- The reply is a complete answer with status 200, of a content type that begins with `text/plain`
when it is read in lower case. -/
def Reply.Delivers (reply : Reply) (body : Bytes) : Prop :=
  ∃ header, reply = .answered 200 header (.ok body) ∧
    "text/plain".toList <+: (Fetch.contentTypeText header).toList

namespace Fetch

theorem isPlainText_iff {contentType : String} :
    isPlainText contentType = true ↔ "text/plain".toList <+: contentType.toList := by
  rw [isPlainText, Option.isSome_iff_exists]
  exact exists_congr fun rest => Text.after?_eq_some_iff.trans eq_comm

theorem delivers_iff : reply.Delivers body ↔ reply.body? = some body := by
  constructor
  · rintro ⟨header, rfl, htext⟩
    rw [Reply.body?, if_pos ⟨rfl, isPlainText_iff.mpr htext⟩]
  · intro h
    cases reply with
    | failed cause => cases h
    | answered status header result =>
      cases result with
      | error cause => cases h
      | ok bytes =>
        simp only [Reply.body?] at h
        split_ifs at h with hgiven
        obtain ⟨rfl, htext⟩ := hgiven
        obtain rfl := Option.some.inj h
        exact ⟨header, rfl, isPlainText_iff.mp htext⟩

theorem download_cases (network : Network) (f : Filter) :
    (∃ body, (network f.url).Delivers body ∧ f.checksum = some (checksum body) ∧
      (download network).perform f = (.ok false, f)) ∨
    (∃ body, (network f.url).Delivers body ∧ f.checksum ≠ some (checksum body) ∧
      (download network).perform f = (.ok true, f.renewed body)) ∨
    ((∀ body, ¬ (network f.url).Delivers body) ∧
      ∃ e, (download network).perform f = (.error e, f)) := by
  rw [perform_download]
  rcases apply_body? (network f.url) f with ⟨body, hbody, happly⟩ | ⟨hnone, e, herror⟩
  · rw [happly, Filter.applyFetched_eq]
    by_cases hsame : f.checksum = some (checksum body)
    · exact .inl ⟨body, delivers_iff.mpr hbody, hsame, by rw [if_pos hsame]⟩
    · exact .inr (.inl ⟨body, delivers_iff.mpr hbody, hsame, by rw [if_neg hsame]⟩)
  · refine .inr (.inr ⟨fun body hbody => ?_, e, by rw [herror]⟩)
    cases hnone.symm.trans (delivers_iff.mp hbody)

theorem eq_of_delivers {other : Bytes} (h : reply.Delivers body) (h' : reply.Delivers other) :
    body = other :=
  Option.some.inj ((delivers_iff.mp h).symm.trans (delivers_iff.mp h'))

/-- A download succeeds just with a body, and the flag tells whether its checksum is a new one. -/
theorem download_eq_ok_iff {changed : Bool} : ((download network).perform f).1 = .ok changed ↔
    ∃ body, (network f.url).Delivers body ∧
      (changed = true ↔ f.checksum ≠ some (checksum body)) := by
  rcases download_cases network f with
    ⟨body, hbody, hsame, heq⟩ | ⟨body, hbody, hother, heq⟩ | ⟨hnone, e, heq⟩
  · rw [heq]
    constructor
    · intro h
      exact ⟨body, hbody, by simp [← Except.ok.inj h, hsame]⟩
    · rintro ⟨other, hgiven, hflag⟩
      rw [eq_of_delivers hgiven hbody] at hflag
      simp [Bool.eq_false_of_not_eq_true fun hchanged => hflag.mp hchanged hsame]
  · rw [heq]
    constructor
    · intro h
      exact ⟨body, hbody, by simp [← Except.ok.inj h, hother]⟩
    · rintro ⟨other, hgiven, hflag⟩
      rw [eq_of_delivers hgiven hbody] at hflag
      simp [hflag.mpr hother]
  · rw [heq]
    constructor
    · intro h
      cases h
    · rintro ⟨body, hbody, -⟩
      exact absurd hbody (hnone body)

/-- A record that a download takes no body for stays as it is. -/
theorem download_unchanged (h : ((download network).perform f).1 ≠ .ok true) :
    ((download network).perform f).2 = f := by
  rcases download_cases network f with ⟨_, _, _, heq⟩ | ⟨_, _, _, heq⟩ | ⟨_, e, heq⟩
  · rw [heq]
  · exact absurd (by rw [heq]) h
  · rw [heq]

theorem download_renewed (h : ((download network).perform f).1 = .ok true) :
    ∃ body, (network f.url).Delivers body ∧ ((download network).perform f).2 = f.renewed body := by
  rcases download_cases network f with ⟨_, _, _, heq⟩ | ⟨body, hbody, _, heq⟩ | ⟨_, e, heq⟩
  · rw [heq] at h
    cases h
  · exact ⟨body, hbody, by rw [heq]⟩
  · rw [heq] at h
    cases h

theorem download_url (network : Network) (f : Filter) :
    ((download network).perform f).2.url = f.url := by
  by_cases hchanged : ((download network).perform f).1 = .ok true
  · obtain ⟨body, -, heq⟩ := download_renewed hchanged
    rw [heq]
    rfl
  · rw [download_unchanged hchanged]

theorem downloadAll_unchanged (f : Filter) (networks : List Network)
    (h : ∀ i : ℕ, (downloadAll f networks).2[i]? ≠ some (.ok true)) :
    (downloadAll f networks).1 = f := by
  induction networks generalizing f with
  | nil => rfl
  | cons network rest ih =>
    have hfirst := download_unchanged fun hchanged => h 0 (congrArg some hchanged)
    have hrest : (downloadAll ((download network).perform f).2 rest).1 =
        ((download network).perform f).2 := ih _ fun i => h (i + 1)
    exact hrest.trans hfirst

/-- The record ends with the body of the last download that has taken one. -/
theorem downloadAll_last (f : Filter) (networks : List Network) (i : ℕ)
    (htaken : (downloadAll f networks).2[i]? = some (.ok true))
    (hlast : ∀ j > i, (downloadAll f networks).2[j]? ≠ some (.ok true)) :
    ∃ network body, networks[i]? = some network ∧ (network f.url).Delivers body ∧
      (downloadAll f networks).1.Carries body := by
  induction networks generalizing f i with
  | nil => cases htaken
  | cons network rest ih =>
    cases i with
    | zero =>
      obtain ⟨body, hbody, heq⟩ := download_renewed (Option.some.inj htaken)
      have hrest := downloadAll_unchanged ((download network).perform f).2 rest
        fun j => hlast (j + 1) j.succ_pos
      refine ⟨network, body, rfl, hbody, ?_⟩
      rw [show (downloadAll f (network :: rest)).1 = f.renewed body from hrest.trans heq]
      exact f.carries_renewed body
    | succ i =>
      obtain ⟨later, body, hlater, hbody, hcarries⟩ := ih ((download network).perform f).2 i htaken
        fun j hj => hlast (j + 1) (Nat.succ_lt_succ hj)
      rw [download_url] at hbody
      exact ⟨later, body, hlater, hbody, hcarries⟩

/-- A download takes a body just when the reply delivers one with a checksum that is new to the
record, and tells that nothing has changed when only the checksum is not new. A body that is taken
becomes the content of the record, with its own checksum, count of rules and title, if it has one;
the other fields stay. In every other case, failures included, the record stays as it is. So after
any number of downloads the last body that was taken is the content. -/
theorem download_wholly_or_not (f : Filter) :
    (∀ network : Network,
      let outcome := (download network).perform f
      (outcome.1 = .ok true ↔
        ∃ body, (network f.url).Delivers body ∧ f.checksum ≠ some (checksum body)) ∧
      (outcome.1 = .ok false ↔
        ∃ body, (network f.url).Delivers body ∧ f.checksum = some (checksum body)) ∧
      (outcome.1 = .ok true → ∀ body, (network f.url).Delivers body →
        outcome.2 = { f with
          content := some body
          checksum := some (checksum body)
          ruleCount := (Content.rules body).length
          name := (Content.Summary.ofBytes body).title.getD f.name }) ∧
      (outcome.1 ≠ .ok true → outcome.2 = f)) ∧
    ∀ networks : List Network,
      (∀ i : ℕ, (downloadAll f networks).2[i]? = some (.ok true) →
        (∀ j > i, (downloadAll f networks).2[j]? ≠ some (.ok true)) →
        ∃ network body, networks[i]? = some network ∧ (network f.url).Delivers body ∧
          (downloadAll f networks).1.Carries body) ∧
      ((∀ i : ℕ, (downloadAll f networks).2[i]? ≠ some (.ok true)) →
        (downloadAll f networks).1 = f) := by
  refine ⟨fun network => ⟨?_, ?_, fun htaken body hbody => ?_, download_unchanged⟩,
    fun networks => ⟨downloadAll_last f networks, downloadAll_unchanged f networks⟩⟩
  · rw [download_eq_ok_iff]
    refine exists_congr fun body => and_congr_right fun _ => ?_
    rw [eq_self_iff_true, true_iff]
  · rw [download_eq_ok_iff]
    refine exists_congr fun body => and_congr_right fun _ => ?_
    rw [Bool.false_eq_true, false_iff, not_not]
  · obtain ⟨taken, hgiven, heq⟩ := download_renewed htaken
    obtain rfl := eq_of_delivers hgiven hbody
    rw [heq, Filter.renewed, Filter.setContent, Content.Summary.ofBytes_eq]

/-- A list in two versions and then no longer. The second version comes again before that. -/
def changingNetworks : List Network :=
  [fun _ => .answered 200 (some (bytesOf "text/plain")) (.ok (bytesOf "! Title: First\na.example")),
    fun _ => .answered 200 (some (bytesOf " Text/PLAIN; charset=utf-8")) (.ok (bytesOf "b.example")),
    fun _ => .answered 200 (some (bytesOf "text/plain")) (.ok (bytesOf "b.example")),
    fun _ => .answered 200 (some (bytesOf "text/plain")) (.error "connection closed"),
    fun _ => .answered 404 (some (bytesOf "text/plain")) (.ok (bytesOf "c.example"))]

theorem download_of_changingNetworks :
    (downloadAll { url := "http://a" } changingNetworks).2[1]? = some (.ok true) ∧
      (downloadAll { url := "http://a" } changingNetworks).1.Carries (bytesOf "b.example") ∧
      (downloadAll { url := "http://a" } changingNetworks).1.name = "First" := by
  have hresults : (downloadAll { url := "http://a" } changingNetworks).2 =
      [.ok true, .ok true, .ok false, .error (.transferFailed "http://a" "connection closed"),
        .error (.unexpectedStatus "http://a" 404)] := by
    decide +kernel
  have hlater : ∀ j > 1, (downloadAll { url := "http://a" } changingNetworks).2[j]? ≠
      some (.ok true) := by
    intro j hj
    rw [hresults]
    rcases j with _ | _ | _ | _ | _ | j <;> simp at hj ⊢
  obtain ⟨-, hseries⟩ := download_wholly_or_not { url := "http://a" }
  obtain ⟨-, body, -, -, hcarries⟩ :=
    (hseries changingNetworks).1 1 (by rw [hresults]; rfl) hlater
  have hcontent : (downloadAll { url := "http://a" } changingNetworks).1.content =
      some (bytesOf "b.example") := by
    decide +kernel
  obtain rfl := Option.some.inj (hcarries.content.symm.trans hcontent)
  exact ⟨by rw [hresults]; rfl, hcarries, by decide +kernel⟩

end Fetch

end FilterLists
