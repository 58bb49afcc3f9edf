import Conglobate.Artifact.Digest
import Conglobate.Plan.Basic

/- Image names (`image.rs`). A reference is the displayed form of a remote, so two
   remotes that display alike name one input. -/
namespace Conglobate

namespace Plan.Remote

/-- `Display`. -/
def toString (r : Remote) : Text :=
  r.registry ++ '/' :: r.repository ++
    match r.selector with
    | .tag tag => ':' :: tag
    | .digest digest => '@' :: Artifact.Digest.toString ⟨digest⟩

end Plan.Remote

structure ImageReference where
  text : Text

namespace ImageReference

theorem text_injective : Function.Injective ImageReference.text := by
  intro a b h
  exact (ImageReference.mk.injEq ..).mpr h

instance instLinearOrder : LinearOrder ImageReference := LinearOrder.lift' text text_injective

/-- `From<&Remote>`. -/
def ofRemote (r : Plan.Remote) : ImageReference := ⟨r.toString⟩

end ImageReference

end Conglobate
