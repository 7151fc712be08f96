import DioMonitor.Utils.Proofs.InversionProofs
import DioMonitor.Utils.Proofs.LayoutProofs
import DioMonitor.Utils.Strict

/-!
# Proofs: loose phrases are accepted

Every loose phrase is a phrase of the language of the parser, with some value.
-/

namespace Strict

open Config Toml

/-! ## Words -/

theorem word_of_point {x : Str} (hp : '.' ∈ x) : Word x := by
  refine ⟨?_, ?_, ?_, ?_, ?_, ?_⟩
  all_goals
    rintro rfl
    exact absurd hp (by decide)

theorem decimal_point {x : Str} {neg : Bool} {q : ℚ} (hx : Numbers.Decimal x neg q) : '.' ∈ x := by
  obtain ⟨sign, ip, fp, ex, e, -, -, -, rfl, -⟩ := hx
  simp

end Strict

namespace Loose

open Config Toml

/-! ## Loose texts are accepted -/

theorem Number.value {x : Str} (hx : Number x) {ps ps' : List Str} (h : significant ps = x :: ps') :
    ∃ v, IsValue ps v ps' := by
  obtain ⟨hword, hread⟩ := hx
  split_ifs at hread with hp
  · obtain ⟨⟨v, hv⟩, -⟩ := hread
    exact ⟨_, .float h hword hp hv⟩
  · obtain ⟨⟨i, hi⟩, -⟩ := hread
    exact ⟨_, .int h hword hp hi⟩

mutual

theorem HasDefect.accepted {k : Kind} {ps ps' : List Str} (h : HasDefect k ps ps') :
    ∃ v, IsValue ps v ps' := by
  match k, h with
  | _, .word h hx => exact hx.value h
  | _, .hash hf h _ hs => exact ⟨_, .string hf h hs⟩
  | _, .dict h hd =>
    obtain ⟨kvs, hd⟩ := hd.accepted
    exact ⟨_, .dict h hd⟩
  | _, .array h ha =>
    obtain ⟨vs, ha⟩ := ha.accepted
    exact ⟨_, .array h ha⟩

theorem InTable.accepted {k : Kind} {ps ps' : List Str} (h : InTable k ps ps') :
    ∃ kvs, Entries false ps kvs ps' := by
  match h with
  | .last ⟨_, h, hn, he⟩ hv hc =>
    obtain ⟨v, hv⟩ := hv.accepted
    exact ⟨_, .last h hn he hv hc⟩
  | .first ⟨_, h, hn, he⟩ hv hc hk =>
    obtain ⟨v, hv⟩ := hv.accepted
    exact ⟨_, .more h hn he hv hc hk⟩
  | .rest ⟨_, h, hn, he⟩ hv hc hk =>
    obtain ⟨kvs, hk⟩ := hk.accepted
    exact ⟨_, .more h hn he hv.2 hc hk⟩

theorem InArray.accepted {k : Kind} {ps ps' : List Str} (h : InArray k ps ps') :
    ∃ vs, Elements ps vs ps' := by
  match h with
  | .last hv hc =>
    obtain ⟨v, hv⟩ := hv.accepted
    exact ⟨_, .last (hv.begin_ne (by decide)) hv hc⟩
  | .first hv hc hk =>
    obtain ⟨v, hv⟩ := hv.accepted
    exact ⟨_, .more (hv.begin_ne (by decide)) hv hc hk⟩
  | .rest hv hc hk =>
    obtain ⟨vs, hk⟩ := hk.accepted
    exact ⟨_, .more (hv.2.begin_ne (by decide)) hv.2 hc hk⟩

end

theorem Cut.accepted {ps ps' : List Str} (h : Cut ps ps') : ∃ kvs, Entries false ps kvs ps' := by
  induction h with
  | eof h => exact ⟨_, .eof h⟩
  | header h => exact ⟨_, .header h⟩
  | entry h hv hc _ ih =>
    obtain ⟨_, h, hn, he⟩ := h
    obtain ⟨kvs, hk⟩ := ih
    exact ⟨_, .more h hn he hv.2 hc hk⟩

theorem InBody.accepted {k : Kind} {ps ps' : List Str} (h : InBody k ps ps') :
    ∃ kvs, Entries true ps kvs ps' := by
  induction h with
  | value h hv hk =>
    obtain ⟨_, h, hn, he⟩ := h
    obtain ⟨v, hv⟩ := hv.accepted
    exact ⟨_, .entry h hn he hv hk⟩
  | cut h hb hc hk =>
    obtain ⟨_, h, hn, he⟩ := h
    obtain ⟨kvs, hc⟩ := hc.accepted
    exact ⟨_, .entry h hn he (.dict hb hc) hk⟩
  | rest h hv _ ih =>
    obtain ⟨_, h, hn, he⟩ := h
    obtain ⟨kvs, hk⟩ := ih
    exact ⟨_, .entry h hn he hv.2 hk⟩

theorem InSections.accepted {k : Kind} {ps : List Str} (h : InSections k ps) :
    ∃ secs, Sections ps secs := by
  induction h with
  | first h hk hs =>
    obtain ⟨_, _, h, hn, hc⟩ := h
    obtain ⟨kvs, hk⟩ := hk.accepted
    exact ⟨_, .cons h hn hc hk hs⟩
  | rest h _ hk _ ih =>
    obtain ⟨_, _, h, hn, hc⟩ := h
    obtain ⟨secs, hs⟩ := ih
    exact ⟨_, .cons h hn hc hk hs⟩

end Loose
