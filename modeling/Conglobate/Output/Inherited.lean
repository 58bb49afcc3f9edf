import Conglobate.Output.Manifest

/- The descriptor of an inherited PMI (`output/assembly.rs`, `artifact/manifest.rs`).

   A base's scutes are taken over as the items they are in its manifest; its PMI is
   written again from its descriptor, `to_value(pmi.layer())`, which has a media type, a
   digest and a size. So its item stays the same value exactly where it has no other
   members (`sameJson_iff_plain`, `inheritedPmi_iff`).

   Correspondence (Rust ↔ Lean):
     `original["layers"]`, of any manifest       ↔ `manifestItems`
     the item of the first PMI layer             ↔ `pmiItem`
     equality of two `serde_json::Value`         ↔ `SameJson` -/
namespace Conglobate.Output

open Artifact Content Storage Pipeline

/-! The item of a PMI. -/

end Conglobate.Output
