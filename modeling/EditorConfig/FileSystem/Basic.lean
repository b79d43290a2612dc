import EditorConfig.Error

/-! What a resolution asks about files. -/
namespace EditorConfig

structure FileSystem where
  isDirectory : Text → Bool
  isFile : Text → Bool
  read : Text → Except ReadError Text

end EditorConfig
