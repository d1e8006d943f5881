import FitsWell.BinTable.SchemaBounds
import FitsWell.BinTable.SelectionCopies
import FitsWell.Checksum.Running
import FitsWell.Column.FormatText
import FitsWell.Compression.FirstFailure
import FitsWell.Compression.HcompressCoding
import FitsWell.Compression.HcompressRoundTrip
import FitsWell.Compression.HcompressSafe
import FitsWell.Compression.ImageLayout
import FitsWell.Compression.PlioReference
import FitsWell.Compression.PlioRoundTrip
import FitsWell.Compression.PlioSafe
import FitsWell.Compression.RiceRoundTrip
import FitsWell.Compression.RiceSafe
import FitsWell.Compression.SectionDecode
import FitsWell.Compression.TileCodec
import FitsWell.Compression.TilePartition
import FitsWell.Hdu.Scan
import FitsWell.HeaderModel.EditEffects
import FitsWell.HeaderModel.SignedHeader
import FitsWell.HeaderModel.SignedSize
import FitsWell.Reader.DataChecksum
import FitsWell.Writer.TableChunks
import FitsWell.WorldCoordinates.LinearTransform
import FitsWell.Reader.StreamSource
import FitsWell.Reader.ScalingPaths
import FitsWell.WorldCoordinates.TabularInterpolation
import FitsWell.HeaderModel.Integers
import FitsWell.TimeCoordinates.DatetimeText
import FitsWell.WorldCoordinates.SubvoxelCorners
import FitsWell.FitsEditor.EditCopy
import FitsWell.FitsWriter.Sessions
import FitsWell.FitsWriter.Checksummed
import FitsWell.HeaderModel.ParsedHeader
import FitsWell.FitsWriter.WrittenFile
import FitsWell.FitsEditor.EditReopens
import FitsWell.Compression.ImageRoundTrip
import FitsWell.Compression.PhysicalImage
