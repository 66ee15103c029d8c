import RobinHood.Text.CodeRange

/-!
# Characters that are ignored in display

The property `Default_Ignorable_Code_Point` of Unicode 17.0: what is not drawn where it has no
effect of its own, such as joiners, selectors, tags and the fillers of Hangul. The fillers are
letters by their general category.
-/

namespace RobinHood.Text

def defaultIgnorable : List CodeRange :=
  [⟨0xad, 0xad⟩, ⟨0x34f, 0x34f⟩, ⟨0x61c, 0x61c⟩, ⟨0x115f, 0x1160⟩, ⟨0x17b4, 0x17b5⟩,
   ⟨0x180b, 0x180f⟩, ⟨0x200b, 0x200f⟩, ⟨0x202a, 0x202e⟩, ⟨0x2060, 0x206f⟩, ⟨0x3164, 0x3164⟩,
   ⟨0xfe00, 0xfe0f⟩, ⟨0xfeff, 0xfeff⟩, ⟨0xffa0, 0xffa0⟩, ⟨0xfff0, 0xfff8⟩, ⟨0x1bca0, 0x1bca3⟩,
   ⟨0x1d173, 0x1d17a⟩, ⟨0xe0000, 0xe0fff⟩]

theorem ascending_defaultIgnorable : CodeRange.Ascending defaultIgnorable := by
  decide +kernel

end RobinHood.Text
