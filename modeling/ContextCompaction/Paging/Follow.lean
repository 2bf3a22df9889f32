import Mathlib.Tactic.Common

/-!
# Following cursors

A client asks for a page, and then for the next one with the cursor of the page before, until a
page has none. What it asks may answer each request differently: `ask k c` is the answer to the
`k`-th request.

* `Follow`: the pages of such a run, when no request fails.
* `Follow.of_measure`: a run ends if every page leaves less to do. `Follow.unique`: the answers
  decide the run.
* `Outcome`: how a run ends, in its pages or in the failure of a request.
-/

namespace Paging

variable {Cursor Page ε : Type}

/-- The pages from the `k`-th request on, with the cursor that it carries. -/
inductive Follow (ask : Nat → Option Cursor → Except ε Page) (next : Page → Option Cursor) :
    Nat → Option Cursor → List Page → Prop
  | last {k c page} : ask k c = .ok page → next page = none → Follow ask next k c [page]
  | more {k c page c' pages} : ask k c = .ok page → next page = some c' →
      Follow ask next (k + 1) (some c') pages → Follow ask next k c (page :: pages)

/-- The end of the run from the `k`-th request on: its pages, or the failure that stops it. -/
inductive Outcome (ask : Nat → Option Cursor → Except ε Page) (next : Page → Option Cursor) :
    Nat → Option Cursor → Except ε (List Page) → Prop
  | fail {k c failure} : ask k c = .error failure → Outcome ask next k c (.error failure)
  | last {k c page} : ask k c = .ok page → next page = none → Outcome ask next k c (.ok [page])
  | more {k c page c' result} : ask k c = .ok page → next page = some c' →
      Outcome ask next (k + 1) (some c') result →
        Outcome ask next k c (result.map fun pages => page :: pages)

variable {ask : Nat → Option Cursor → Except ε Page} {next : Page → Option Cursor} {k : Nat}
  {c : Option Cursor}

/-- A run that no request stops is one whose pages follow each other. -/
theorem Outcome.follow {pages : List Page} (h : Outcome ask next k c (.ok pages)) :
    Follow ask next k c pages := by
  generalize hresult : Except.ok pages = result at h
  induction h generalizing pages with
  | fail => cases hresult
  | last hask hnext =>
    obtain rfl := Except.ok.inj hresult
    exact .last hask hnext
  | @more k c page c' result hask hnext _ ih =>
    cases result with
    | error => cases hresult
    | ok rest =>
      obtain rfl := Except.ok.inj hresult
      exact .more hask hnext (ih rfl)

theorem Follow.unique {pages pages' : List Page} (h : Follow ask next k c pages)
    (h' : Follow ask next k c pages') : pages = pages' := by
  induction h generalizing pages' with
  | last ha hn =>
    cases h' with
    | last ha' _ => rw [Except.ok.inj (ha.symm.trans ha')]
    | more ha' hn' _ =>
      obtain rfl := Except.ok.inj (ha.symm.trans ha')
      rw [hn] at hn'
      cases hn'
  | more ha hn _ ih =>
    cases h' with
    | last ha' hn' =>
      obtain rfl := Except.ok.inj (ha.symm.trans ha')
      rw [hn] at hn'
      cases hn'
    | more ha' hn' hrest =>
      obtain rfl := Except.ok.inj (ha.symm.trans ha')
      obtain rfl := Option.some.inj (hn.symm.trans hn')
      rw [ih hrest]

/-- `Pre k c s`: the `k`-th request, with the cursor `c`, has the work `s` before it. A page either
ends the run or leaves work that measures less. -/
theorem Follow.of_measure {σ : Type} (Pre : Nat → Option Cursor → σ → Prop)
    (Post : Nat → σ → List Page → Prop) (measure : σ → Nat)
    (step : ∀ k c s, Pre k c s → ∃ page, ask k c = .ok page ∧
      ((next page = none ∧ Post k s [page]) ∨
        ∃ c' s', next page = some c' ∧ Pre (k + 1) (some c') s' ∧ measure s' < measure s ∧
          ∀ pages, Post (k + 1) s' pages → Post k s (page :: pages)))
    {s : σ} (h : Pre k c s) : ∃ pages, Follow ask next k c pages ∧ Post k s pages := by
  obtain ⟨n, hn⟩ : ∃ n, measure s = n := ⟨_, rfl⟩
  induction n using Nat.strongRecOn generalizing k c s with
  | ind n ih =>
    obtain ⟨page, hask, ⟨hnext, hpost⟩ | ⟨c', s', hnext, hpre, hlt, hpost⟩⟩ := step k c s h
    · exact ⟨[page], .last hask hnext, hpost⟩
    · obtain ⟨pages, hfollow, hrest⟩ := ih _ (hn ▸ hlt) hpre rfl
      exact ⟨page :: pages, .more hask hnext hfollow, hpost pages hrest⟩

end Paging
